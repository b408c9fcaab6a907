import AiGramLib.Details.Effect

/-!
# When a failed refresh changes nothing

The main block that receives a failed refresh passes on the table of that moment, and another
block stores it. What is stored in between is overwritten. `failed_refresh_keeps` shows that
nothing else goes wrong: if the blocks that are queued when a failed refresh is received leave
the table as it is (`keepsSnapshots`), the details are those of the last successful refresh at
all times.
-/

namespace AiGramLib.Details

open Transition

/-- The table after a main block. -/
def Block.table (table : Table) : Block → Table
  | .received refresh outcome =>
      match refresh.caller with
      | .start => outcome.getD table
      | _ => table
  | .store _ _ result => result
  | .voteFailed .. | .enablingFailed _ | .rated .. => table

/-- The table after some main blocks. -/
def tableAfter (table : Table) (blocks : List Block) : Table :=
  blocks.foldl Block.table table

/-- The tables are equal as dictionaries: an `AList` also has an order, which nothing reads. -/
def Table.Same (table other : Table) : Prop :=
  table.entries.Perm other.entries

instance (table other : Table) : Decidable (table.Same other) :=
  inferInstanceAs (Decidable (table.entries.Perm other.entries))

/-- A failed refresh that a second block will store is received only while the blocks queued
before that one leave the table as it is. -/
def keepsSnapshots (s : State) : Action → Bool
  | .runBlock =>
      match s.main with
      | .received refresh none :: rest =>
          refresh.caller = .start ||
            (tableAfter s.botsDetailsFromBack rest).Same s.botsDetailsFromBack
      | _ => true
  | _ => true

/-- The table that the last successful refresh brought. -/
def lastBrought (applied : List Application) : Table :=
  (applied.filterMap Application.outcome).getLast?.getD ∅

/-- When their time comes, the blocks that store a table will store what their refreshes brought,
or the table as it is then. -/
def Faithful (table : Table) : List Block → Prop
  | [] => True
  | block :: rest =>
      (∀ refresh outcome result, block = .store refresh outcome result →
        result.Same (outcome.getD table)) ∧ Faithful (block.table table) rest

/-- The details are those of the last successful refresh, and so they stay. -/
structure Kept (s : State) : Prop where
  table : s.botsDetailsFromBack.Same (lastBrought s.applied)
  applied : ∀ application ∈ s.applied,
    application.after.Same (application.outcome.getD application.before)
  pending : Faithful s.botsDetailsFromBack s.main

/-- Tables are equal as dictionaries if they have the same details of every bot. -/
theorem same_iff {table other : Table} :
    table.Same other ↔ ∀ name, table.lookup name = other.lookup name := by
  constructor
  · exact fun hsame name => AList.perm_lookup hsame
  · refine fun hsame => List.lookup_ext table.nodupKeys other.nodupKeys fun name details => ?_
    exact Eq.to_iff (congrArg (details ∈ ·) (hsame name))

theorem faithful_append {table : Table} {blocks more : List Block} :
    Faithful table (blocks ++ more) ↔
      Faithful table blocks ∧ Faithful (tableAfter table blocks) more := by
  induction blocks generalizing table with
  | nil => simp [Faithful, tableAfter]
  | cons block rest ih =>
      simp only [List.cons_append, Faithful, ih, and_assoc]
      rfl

theorem last_brought_append (applied : List Application) (application : Application) :
    lastBrought (applied ++ [application]) =
      application.outcome.getD (lastBrought applied) := by
  cases houtcome : application.outcome <;> simp [lastBrought, houtcome]

variable {s t : State}

/-- The block that a handler dispatches does not store. -/
theorem faithful_handler (table : Table) (handler : Handler) (data : Option Payload)
    (error : Option String) : Faithful table (handler.block? data error).toList := by
  cases handler with
  | firstStart => trivial
  | vote | enabling => cases error <;> simp [Handler.block?, Faithful]
  | voting | details => simp [Handler.block?, Faithful]

/-- A block that stores faithfully keeps the history straight. -/
theorem Kept.store (refresh : Refresh) {outcome : Option Table} {result : Table}
    (htable : s.botsDetailsFromBack.Same (lastBrought s.applied))
    (happlied : ∀ application ∈ s.applied,
      application.after.Same (application.outcome.getD application.before))
    (hresult : result.Same (outcome.getD s.botsDetailsFromBack)) :
    result.Same (lastBrought (store s refresh outcome result).applied) ∧
    ∀ application ∈ (store s refresh outcome result).applied,
      application.after.Same (application.outcome.getD application.before) := by
  refine ⟨?_, fun application happlication => ?_⟩
  · rw [Details.store, last_brought_append]
    cases outcome with
    | none => exact hresult.trans htable
    | some table => exact hresult
  · rcases List.mem_append.mp happlication with hold | hnew
    · exact happlied application hold
    · rw [List.mem_singleton.mp hnew]
      exact hresult

/-- A main block that meets the condition keeps the pending ones faithful. -/
theorem Kept.runMain (h : Kept s) {block : Block} {rest : List Block}
    (hmain : s.main = block :: rest) (hkeeps : keepsSnapshots s .runBlock = true) :
    Kept (runMain { s with main := rest } block) := by
  have hpending := h.pending
  rw [hmain] at hpending
  obtain ⟨hhead, hrest⟩ := hpending
  cases block with
  | received refresh outcome =>
      obtain ⟨number, caller⟩ := refresh
      cases caller with
      | start =>
          obtain ⟨htable, happlied⟩ := Kept.store ⟨number, .start⟩ h.table h.applied (.refl _)
          exact ⟨htable, happlied, hrest⟩
      | _ =>
          refine ⟨h.table, h.applied, faithful_append.mpr ⟨hrest, ?_⟩⟩
          simp only [Faithful, and_true]
          rintro _ _ _ ⟨⟩
          cases outcome with
          | some table => exact .refl _
          | none =>
              have hsame : (tableAfter s.botsDetailsFromBack rest).Same s.botsDetailsFromBack := by
                simpa [keepsSnapshots, hmain] using hkeeps
              exact hsame.symm
  | store refresh outcome result =>
      obtain ⟨number, caller⟩ := refresh
      obtain ⟨htable, happlied⟩ := Kept.store ⟨number, caller⟩ h.table h.applied
        (hhead _ _ _ rfl)
      cases caller <;> exact ⟨htable, happlied, hrest⟩
  | voteFailed | enablingFailed | rated => exact ⟨h.table, h.applied, hrest⟩

variable {enabledBots : AList fun _ : ChatBotId => Bool} {wasStartedBefore : Bool}

theorem Kept.step (h : Kept s) {action : Action} (hkeeps : keepsSnapshots s action = true)
    (hstep : Step s action t) : Kept t := by
  rcases step_effect hstep with ⟨htable, happlied, _, _, hmain⟩ | ⟨rfl, block, rest, hmain, rfl⟩
  · refine ⟨by rw [htable, happlied]; exact h.table, by rw [happlied]; exact h.applied, ?_⟩
    rw [htable]
    rcases hmain with hsame | ⟨i, data, error, task, _, _, hmain⟩
    · exact hsame ▸ h.pending
    · rw [hmain]
      exact faithful_append.mpr ⟨h.pending, faithful_handler ..⟩
  · exact h.runMain hmain hkeeps

theorem Kept.initial : Kept (.initial enabledBots wasStartedBefore) where
  table := .refl _
  applied := by simp [State.initial, getTreshovieBots, request]
  pending := trivial

/-- In every run that meets the condition, the details are those of the last successful refresh
that was stored, and storing a failed one leaves them as they were. -/
theorem failed_refresh_keeps
    (h : ((machine enabledBots wasStartedBefore).restrict keepsSnapshots).Reachable s) :
    (∀ name, s.botsDetailsFromBack.lookup name = (lastBrought s.applied).lookup name) ∧
    ∀ application ∈ s.applied, application.outcome = none →
      ∀ name, application.after.lookup name = application.before.lookup name := by
  have hkept : Kept s := h.restrict_induction (P := Kept) Kept.initial
    fun _ _ _ _ hkept hkeeps hnext => hkept.step hkeeps (step_of_next hnext)
  refine ⟨same_iff.mp hkept.table, fun application happlication hfailed => ?_⟩
  have hsame := hkept.applied application happlication
  rw [hfailed] at hsame
  exact same_iff.mp hsame

/-- A main block changes the table as `Block.table` says and dispatches behind the others. -/
theorem run_main_table (s : State) (block : Block) :
    (runMain s block).botsDetailsFromBack = block.table s.botsDetailsFromBack ∧
      ∃ new, (runMain s block).main = s.main ++ new := by
  cases block with
  | received refresh outcome =>
      obtain ⟨number, caller⟩ := refresh
      cases caller with
      | start => exact ⟨rfl, [], (List.append_nil _).symm⟩
      | _ => exact ⟨rfl, _, rfl⟩
  | store refresh outcome result =>
      obtain ⟨number, caller⟩ := refresh
      cases caller <;> exact ⟨rfl, [], (List.append_nil _).symm⟩
  | voteFailed | enablingFailed | rated => exact ⟨rfl, [], (List.append_nil _).symm⟩

/-- The block that a failed refresh dispatches puts back the snapshot. -/
theorem run_main_snapshot (s : State) (refresh : Refresh) (result : Table) :
    (runMain s (.store refresh none result)).applied =
      s.applied ++ [⟨refresh.number, none, s.botsDetailsFromBack, result⟩] := by
  obtain ⟨number, caller⟩ := refresh
  cases caller <;> rfl

section

variable (enabledBots wasStartedBefore)

theorem next_run_block {block : Block} {rest : List Block} (hmain : s.main = block :: rest) :
    (machine enabledBots wasStartedBefore).next s .runBlock =
      some (runMain { s with main := rest } block) := by
  simp [machine, hmain]

/-- The first blocks of the main queue can run without anything else coming in between. -/
theorem runs_blocks {front back : List Block} (hmain : s.main = front ++ back) :
    ∃ t, (machine enabledBots wasStartedBefore).Reaches s t ∧
      t.botsDetailsFromBack = tableAfter s.botsDetailsFromBack front ∧
      ∃ new, t.main = back ++ new := by
  induction front generalizing s back with
  | nil => exact ⟨s, .refl s, rfl, [], by simpa using hmain⟩
  | cons block rest ih =>
      obtain ⟨htable, new, hnew⟩ := run_main_table { s with main := rest ++ back } block
      obtain ⟨t, hreaches, hafter, more, hmore⟩ :=
        @ih (runMain { s with main := rest ++ back } block) (back ++ new) (by simpa using hnew)
      refine ⟨t, (Machine.Reaches.step (next_run_block _ _ hmain)).trans hreaches, ?_,
        new ++ more, by simp [hmore]⟩
      rw [hafter, htable]
      rfl

/-- Where a step does not meet the condition, storing the failed refresh will change the
table. -/
theorem snapshot_overwrites (h : keepsSnapshots s .runBlock = false) :
    ∃ t, (machine enabledBots wasStartedBefore).Reaches s t ∧
      ∃ application ∈ t.applied,
        application.outcome = none ∧
          ∃ name, application.after.lookup name ≠ application.before.lookup name := by
  simp only [keepsSnapshots] at h
  split at h
  · rename_i refresh rest hmain
    obtain ⟨hcaller, hchanged⟩ : refresh.caller ≠ .start ∧
        ¬ (tableAfter s.botsDetailsFromBack rest).Same s.botsDetailsFromBack := by
      simpa using h
    rw [same_iff, not_forall] at hchanged
    -- the block takes the snapshot, the others run, and then the snapshot is stored
    let taken := dispatch { s with main := rest } (.store refresh none s.botsDetailsFromBack)
    have hreceived : runMain { s with main := rest } (.received refresh none) = taken := by
      obtain ⟨number, caller⟩ := refresh
      cases caller with
      | start => exact absurd rfl hcaller
      | _ => rfl
    obtain ⟨t, hreaches, htable, new, hnew⟩ :=
      @runs_blocks taken enabledBots wasStartedBefore rest _ rfl
    refine ⟨_, (Machine.Reaches.step (hreceived ▸ next_run_block _ _ hmain)).trans
      (hreaches.trans (.step (next_run_block _ _ hnew))), ?_⟩
    rw [run_main_snapshot]
    refine ⟨_, List.mem_append_right _ List.mem_cons_self, rfl, ?_⟩
    obtain ⟨name, hname⟩ := hchanged
    have hlater := congrArg (AList.lookup name) htable
    exact ⟨name, fun hsame => hname (hlater.symm.trans hsame.symm)⟩
  · cases h

end

/-- A failed vote and a failed refresh, each with nothing else going on. -/
theorem failed_refresh_keeps_run :
    ∃ s : State, ((machine ∅ true).restrict keepsSnapshots).Reachable s ∧ s.applied.length = 2 ∧
      ∀ name, s.botsDetailsFromBack.lookup name = (lastBrought s.applied).lookup name := by
  obtain ⟨s, hreach, hlength⟩ :=
    ((machine ∅ true).restrict keepsSnapshots).exists_reachable
      [.respond 0 (some ⟨some [⟨"a", "", "", "", "", "", "4", "1"⟩], none⟩) none, .runBlock,
        .rateBot (.named "a") 5 1, .respond 0 none none, .respond 0 none (some "offline"),
        .runBlock, .runBlock]
      (fun s => s.applied.length = 2) (by decide)
  exact ⟨s, hreach, hlength, (failed_refresh_keeps hreach).1⟩

/-- The refresh after a vote fails, and the first refresh of the app arrives between the block
that takes the snapshot and the one that stores it: the details are empty again. -/
theorem failed_refresh_not_kept :
    ∃ s : State, (machine ∅ true).Reachable s ∧
      ¬ ((∀ name, s.botsDetailsFromBack.lookup name = (lastBrought s.applied).lookup name) ∧
        ∀ application ∈ s.applied, application.outcome = none →
          ∀ name, application.after.lookup name = application.before.lookup name) := by
  obtain ⟨s, hreach, hlost, hbrought⟩ := (machine ∅ true).exists_reachable
    [.rateBot (.named "a") 5 1, .respond 1 none none, .respond 1 none (some "offline"),
      .respond 0 (some ⟨some [⟨"a", "", "", "", "", "", "4", "1"⟩], none⟩) none,
      .runBlock, .runBlock, .runBlock]
    (fun s => s.botsDetailsFromBack.lookup "a" = none ∧
      (lastBrought s.applied).lookup "a" ≠ none) (by decide)
  refine ⟨s, hreach, fun hkept => hbrought ?_⟩
  rw [← hkept.1, hlost]

end AiGramLib.Details
