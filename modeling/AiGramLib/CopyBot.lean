import AiGramLib.LocalBot

/-!
# `copyBot`, one file operation at a time

`copyBot` runs on a global queue, so any main-thread step and any other `copyBot` can come
between two of its file operations. A call is therefore a stage machine: `copyStep` performs
the operation of the current stage with a given outcome. `copy_step_frame` says that a call
touches no directory but the bot's own, and `copy_step_is_local` at which stages it can touch
that one. With outcomes as in `copyLands` the copy ends up in place (`copy_step_lands`), and
with those in `copyFailsClean` what is returned is true (`copy_step_returned`).
-/

namespace AiGramLib

/-- Where a call of `copyBot` stands; each stage is named after what it does next. -/
inductive CopyStage where
  /-- The two guards: a free bot needs no copy, and there must be a document directory. -/
  | guards
  /-- Create the `chatbots` folder if it is not reachable. -/
  | createFolder
  /-- Ask whether the destination is reachable. -/
  | probe
  /-- `try? fm.removeItem(at: destinationUrl)` -/
  | remove
  /-- `try fm.copyItem(at: bot.url, to: destinationUrl)` -/
  | copy
  /-- `try ChatBot(url: destinationUrl)` -/
  | reload
  | returned (copied : Bool)
  deriving DecidableEq, Repr

/-- What one operation of `copyBot` leaves: the file system, the next stage, and the reloaded
bot if a main block that appends it to `bots` was dispatched. -/
structure CopyEffect where
  fs : FileSystem
  stage : CopyStage
  newBot : Option ChatBot := none

/-- One operation of `copyBot(bot)`. A call that has returned takes no further step. -/
def copyStep (bot : ChatBot) (fs : FileSystem) (stage : CopyStage) (outcome : Outcome) :
    Option CopyEffect :=
  match stage with
  | .guards =>
      if bot.isFree then some { fs, stage := .returned true }
      else if fs.documentDirectory then some { fs, stage := .createFolder }
      else some { fs, stage := .returned false }
  | .createFolder =>
      if fs.chatbots.isSome then some { fs, stage := .probe }
      else
        match fs.createDirectory outcome with
        | some created => some { fs := created, stage := .probe }
        | none => some { fs, stage := .returned false }
  | .probe =>
      if fs.checkResourceIsReachable bot.destinationUrl then some { fs, stage := .remove }
      else some { fs, stage := .copy }
  | .remove => some { fs := fs.removeItem bot.destinationUrl outcome, stage := .copy }
  | .copy =>
      -- `copyItem` and the reload share one `do` block: either failure returns `false`
      match fs.copyItem bot.url bot.destinationUrl outcome with
      | (copied, true) => some { fs := copied, stage := .reload }
      | (copied, false) => some { fs := copied, stage := .returned false }
  | .reload =>
      match outcome, ChatBot.init fs bot.destinationUrl with
      | .ok, some newBot => some { fs, stage := .returned true, newBot := some newBot }
      | _, _ => some { fs, stage := .returned false }
  | .returned _ => none

/-- The main block that `copyBot` dispatches, on the list `bots`. -/
def appendBot (bots : List ChatBot) (newBot : ChatBot) : List ChatBot :=
  if bots.any fun bot => bot == newBot then bots else bots ++ [newBot]

/-- The block adds no second bot of a name. -/
theorem nodup_append_bot {bots : List ChatBot} (h : (bots.map ChatBot.name).Nodup)
    (newBot : ChatBot) : ((appendBot bots newBot).map ChatBot.name).Nodup := by
  unfold appendBot
  split
  · exact h
  · rename_i hnew
    rw [List.map_append, List.map_singleton]
    refine List.nodup_append.mpr ⟨h, List.nodup_singleton _, ?_⟩
    rintro name hname other hother rfl
    obtain ⟨bot, hbot, hbotName⟩ := List.mem_map.mp hname
    rw [List.mem_singleton.mp hother] at hbotName
    exact hnew (List.any_eq_true.mpr ⟨bot, hbot, ChatBot.beq_iff_name.mpr hbotName⟩)

/-- The main block of a copy keeps the list and has its bot in it, or one of that name. -/
theorem prefix_append_bot (bots : List ChatBot) (newBot : ChatBot) :
    bots <+: appendBot bots newBot ∧ ∃ bot ∈ appendBot bots newBot, bot.name = newBot.name := by
  unfold appendBot
  split
  · rename_i hany
    obtain ⟨bot, hbot, heq⟩ := List.any_eq_true.mp hany
    exact ⟨List.prefix_rfl, bot, hbot, ChatBot.beq_iff_name.mp heq⟩
  · exact ⟨List.prefix_append _ _, newBot, by simp, rfl⟩

variable {bot : ChatBot} {fs : FileSystem} {stage : CopyStage} {outcome : Outcome}
  {effect : CopyEffect}

/-- The stages before the copy is made: a call at one of them will still try to put the bot's
directory in place. -/
def CopyStage.beforeCopy : CopyStage → Bool
  | .guards | .createFolder | .probe | .remove | .copy => true
  | .reload | .returned _ => false

/-- What a step does to the file system: nothing, or the one operation of its stage. -/
theorem copy_step_fs (h : copyStep bot fs stage outcome = some effect) :
    effect.fs = fs ∨
    fs.chatbots.isSome = false ∧ fs.createDirectory outcome = some effect.fs ∨
    stage = .remove ∧ effect.fs = fs.removeItem bot.destinationUrl outcome ∨
    stage = .copy ∧ effect.fs = (fs.copyItem bot.url bot.destinationUrl outcome).1 := by
  cases stage with
  | guards =>
      simp only [copyStep] at h
      split at h
      · cases h; exact .inl rfl
      · split at h <;> cases h <;> exact .inl rfl
  | createFolder =>
      simp only [copyStep] at h
      split at h
      · cases h; exact .inl rfl
      · rename_i hfolder
        split at h
        · rename_i created hcreate
          cases h
          exact .inr (.inl ⟨by simpa using hfolder, hcreate⟩)
        · cases h; exact .inl rfl
  | probe =>
      simp only [copyStep] at h
      split at h <;> cases h <;> exact .inl rfl
  | remove =>
      cases h
      exact .inr (.inr (.inl ⟨rfl, rfl⟩))
  | copy =>
      simp only [copyStep] at h
      split at h <;> rename_i heq <;> cases h <;> exact .inr (.inr (.inr ⟨rfl, by rw [heq]⟩))
  | reload =>
      simp only [copyStep] at h
      split at h <;> cases h <;> exact .inl rfl
  | returned => cases h

/-- Whether a document directory exists is not changed by `copyBot`. -/
theorem copy_step_document_directory (h : copyStep bot fs stage outcome = some effect) :
    effect.fs.documentDirectory = fs.documentDirectory := by
  rcases copy_step_fs h with hfs | ⟨-, hcreate⟩ | ⟨-, hfs⟩ | ⟨-, hfs⟩
  · rw [hfs]
  · exact FileSystem.document_directory_create hcreate
  · rw [hfs, FileSystem.document_directory_remove]
  · rw [hfs, FileSystem.document_directory_copy]

/-- `copyBot` does not touch the bundle. -/
theorem copy_step_bundle (h : copyStep bot fs stage outcome = some effect) :
    effect.fs.bundle = fs.bundle := by
  rcases copy_step_fs h with hfs | ⟨-, hcreate⟩ | ⟨-, hfs⟩ | ⟨-, hfs⟩
  · rw [hfs]
  · exact FileSystem.bundle_create hcreate
  · rw [hfs, FileSystem.bundle_remove]
  · rw [hfs, FileSystem.bundle_copy]

/-- The `chatbots` folder is never removed. -/
theorem copy_step_chatbots (h : copyStep bot fs stage outcome = some effect)
    (hfolder : fs.chatbots.isSome = true) : effect.fs.chatbots.isSome = true := by
  rcases copy_step_fs h with hfs | ⟨hnone, -⟩ | ⟨-, hfs⟩ | ⟨-, hfs⟩
  · rw [hfs, hfolder]
  · rw [hfolder] at hnone
    cases hnone
  · rw [hfs, FileSystem.chatbots_remove, hfolder]
  · rw [hfs, FileSystem.chatbots_copy, hfolder]

/-- `copyBot` touches no directory but the bot's destination. -/
theorem copy_step_frame (h : copyStep bot fs stage outcome = some effect) {url : URL}
    (hurl : url ≠ bot.destinationUrl) : effect.fs.directory url = fs.directory url := by
  rcases copy_step_fs h with hfs | ⟨-, hcreate⟩ | ⟨-, hfs⟩ | ⟨-, hfs⟩
  · rw [hfs]
  · exact FileSystem.directory_create hcreate url
  · rw [hfs, FileSystem.directory_remove_of_ne fs outcome rfl hurl]
  · rw [hfs, FileSystem.directory_copy_of_ne fs bot.url outcome rfl hurl]

/-- What a call has found when it comes to a stage, and what no step of another call undoes. -/
def CopyStage.Ready (bot : ChatBot) (fs : FileSystem) : CopyStage → Prop
  | .guards | .returned _ => True
  | .createFolder => bot.isFree = false ∧ fs.documentDirectory = true
  | .probe | .remove | .copy | .reload =>
      bot.isFree = false ∧ fs.documentDirectory = true ∧ fs.chatbots.isSome = true

/-- A step of any call keeps what the calls in flight have found. -/
theorem CopyStage.Ready.mono {other : ChatBot} {point : CopyStage}
    (h : point.Ready other fs) (hstep : copyStep bot fs stage outcome = some effect) :
    point.Ready other effect.fs := by
  have hdocuments := copy_step_document_directory hstep
  cases point with
  | guards => trivial
  | returned => trivial
  | createFolder => exact ⟨h.1, hdocuments.trans h.2⟩
  | _ => exact ⟨h.1, hdocuments.trans h.2.1, copy_step_chatbots hstep h.2.2⟩

/-- A call comes to its next stage with what that stage needs. -/
theorem CopyStage.Ready.step (h : stage.Ready bot fs)
    (hstep : copyStep bot fs stage outcome = some effect) : effect.stage.Ready bot effect.fs := by
  cases stage with
  | guards =>
      simp only [copyStep] at hstep
      split at hstep
      · cases hstep; trivial
      · rename_i hfree
        split at hstep
        · rename_i hdocuments
          cases hstep
          exact ⟨by simpa using hfree, hdocuments⟩
        · cases hstep; trivial
  | createFolder =>
      simp only [copyStep] at hstep
      split at hstep
      · rename_i hfolder
        cases hstep
        exact ⟨h.1, h.2, hfolder⟩
      · cases outcome with
        | ok =>
            cases hstep
            exact ⟨h.1, h.2, rfl⟩
        | fails => cases hstep; trivial
  | probe =>
      simp only [copyStep] at hstep
      split at hstep <;> cases hstep <;> exact h
  | remove =>
      have hkept : CopyStage.copy.Ready bot effect.fs := CopyStage.Ready.mono h hstep
      cases hstep
      exact hkept
  | copy =>
      have hkept : CopyStage.reload.Ready bot effect.fs := CopyStage.Ready.mono h hstep
      simp only [copyStep] at hstep
      split at hstep <;> cases hstep
      · exact hkept
      · trivial
  | reload =>
      simp only [copyStep] at hstep
      split at hstep <;> cases hstep <;> trivial
  | returned => cases hstep

/-- The steps at which the directory of the bot can appear or disappear: removing one that is
there, and copying where there is none. -/
def changesCopy (bot : ChatBot) (fs : FileSystem) : CopyStage → Bool
  | .remove => fs.checkResourceIsReachable bot.destinationUrl
  | .copy => !fs.checkResourceIsReachable bot.destinationUrl
  | _ => false

/-- At all other steps every directory stays. -/
theorem copy_step_directory (h : copyStep bot fs stage outcome = some effect)
    (hquiet : changesCopy bot fs stage = false) (url : URL) :
    effect.fs.directory url = fs.directory url := by
  rcases copy_step_fs h with hfs | ⟨-, hcreate⟩ | ⟨rfl, hfs⟩ | ⟨rfl, hfs⟩
  · rw [hfs]
  · exact FileSystem.directory_create hcreate url
  · have hnone : fs.checkResourceIsReachable bot.destinationUrl = false := hquiet
    simp [hfs, FileSystem.removeItem, hnone]
  · have hsome : fs.checkResourceIsReachable bot.destinationUrl = true := by
      simpa [changesCopy] using hquiet
    simp [hfs, FileSystem.copyItem, hsome]

/-- Which bots are installed changes at those steps only, and only for bots with the
destination of the copy. -/
theorem copy_step_is_local (h : copyStep bot fs stage outcome = some effect) {other : ChatBot}
    (hquiet : changesCopy bot fs stage = true → other.destinationUrl ≠ bot.destinationUrl) :
    other.isLocal effect.fs = other.isLocal fs := by
  refine ChatBot.is_local_congr (copy_step_document_directory h) ?_
  cases hchanges : changesCopy bot fs stage with
  | false => exact copy_step_directory h hchanges _
  | true => exact copy_step_frame h (hquiet hchanges)

theorem copy_step_changes (h : copyStep bot fs stage outcome = some effect) (other : ChatBot)
    (hne : other.isLocal effect.fs ≠ other.isLocal fs) :
    changesCopy bot fs stage = true ∧ other.destinationUrl = bot.destinationUrl := by
  by_contra hquiet
  exact hne (copy_step_is_local h fun hchanges hsame => hquiet ⟨hchanges, hsame⟩)

/-- An installed bot stays installed, but for a copy of it that is about to replace it. -/
theorem copy_step_keeps (h : copyStep bot fs stage outcome = some effect)
    (hready : stage.Ready bot fs) {other : ChatBot} (hlocal : other.isLocal fs = true) :
    other.isLocal effect.fs = true ∨ effect.stage = .copy ∧ bot.sharesCopy other = true := by
  cases hafter : other.isLocal effect.fs with
  | true => exact .inl rfl
  | false =>
      obtain ⟨hchanges, hsame⟩ := copy_step_changes h other (by simp [hafter, hlocal])
      have hfree : other.isFree = false := by
        by_contra hfree
        simp [ChatBot.isLocal, hfree] at hafter
      cases stage with
      | remove =>
          have hshares : bot.sharesCopy other = true := by
            simp [ChatBot.sharesCopy, hsame, hready.1, hfree]
          cases h
          exact .inr ⟨rfl, hshares⟩
      | copy =>
          have hnone : fs.checkResourceIsReachable other.destinationUrl = false := by
            simpa [changesCopy, hsame] using hchanges
          rw [ChatBot.is_local_of_not_free hfree hready.2.1, hnone] at hlocal
          cases hlocal
      | _ => cases hchanges

/-- The outcomes with which a copy puts a directory in place: it passes the guards and the
creation of the folder, and it finds a directory at the destination or leaves one there. -/
def copyLands (bot : ChatBot) (fs : FileSystem) (stage : CopyStage) (outcome : Outcome) : Bool :=
  match stage with
  | .guards => bot.isFree || fs.documentDirectory
  | .createFolder => fs.chatbots.isSome || outcome.isOk
  | .copy =>
      fs.checkResourceIsReachable bot.destinationUrl ||
        fs.checkResourceIsReachable bot.url && outcome.leavesItem
  | _ => true

/-- With these outcomes a call either goes on to its copy or has installed the bot. -/
theorem copy_step_lands (h : copyStep bot fs stage outcome = some effect)
    (hready : stage.Ready bot fs) (hlands : copyLands bot fs stage outcome = true)
    (hbefore : stage.beforeCopy = true) :
    effect.stage.beforeCopy = true ∨ bot.isLocal effect.fs = true := by
  cases stage with
  | guards =>
      simp only [copyStep] at h
      split at h
      · rename_i hfree
        exact .inr (by simp [ChatBot.isLocal, hfree])
      · rename_i hfree
        have hdocuments : fs.documentDirectory = true := by simpa [copyLands, hfree] using hlands
        rw [if_pos hdocuments] at h
        cases h
        exact .inl rfl
  | createFolder =>
      simp only [copyStep] at h
      split at h
      · cases h
        exact .inl rfl
      · rename_i hfolder
        cases outcome with
        | ok =>
            cases h
            exact .inl rfl
        | fails left => simp [copyLands, hfolder, Outcome.isOk] at hlands
  | probe =>
      simp only [copyStep] at h
      split at h <;> cases h <;> exact .inl rfl
  | remove =>
      cases h
      exact .inl rfl
  | copy =>
      obtain ⟨hfree, hdocuments, hfolder⟩ := hready
      refine .inr ?_
      rw [ChatBot.is_local_of_not_free hfree ((copy_step_document_directory h).trans hdocuments)]
      have hcopy := FileSystem.copy_item_leaves rfl hfolder hlands
      simp only [copyStep] at h
      split at h <;> rename_i heq <;> cases h <;> simpa [heq] using hcopy
  | reload => cases hbefore
  | returned => cases hbefore

/-- The steps at which `copyBot` does not fail over a directory in place. -/
def copyFailsClean (bot : ChatBot) (fs : FileSystem) (stage : CopyStage) (outcome : Outcome) :
    Bool :=
  match stage with
  | .copy =>
      !fs.checkResourceIsReachable bot.destinationUrl &&
        (!fs.checkResourceIsReachable bot.url || outcome.allOrNothing)
  | .reload =>
      !fs.checkResourceIsReachable bot.destinationUrl ||
        outcome.isOk && (ChatBot.init fs bot.destinationUrl).isSome
  | _ => true

/-- Then what `copyBot` returns says whether the bot is installed at that moment. -/
theorem copy_step_returned (h : copyStep bot fs stage outcome = some effect)
    (hready : stage.Ready bot fs) (hclean : copyFailsClean bot fs stage outcome = true)
    {copied : Bool} (hreturned : effect.stage = .returned copied) :
    copied = bot.isLocal effect.fs := by
  cases stage with
  | guards =>
      simp only [copyStep] at h
      split at h
      · rename_i hfree
        cases h
        cases hreturned
        simp [ChatBot.isLocal, hfree]
      · rename_i hfree
        split at h
        · cases h
          cases hreturned
        · rename_i hdocuments
          cases h
          cases hreturned
          simp [ChatBot.isLocal, hfree, hdocuments]
  | createFolder =>
      simp only [copyStep] at h
      split at h
      · cases h
        cases hreturned
      · rename_i hfolder
        have hnone : fs.chatbots = none := by simpa using hfolder
        cases outcome with
        | ok =>
            cases h
            cases hreturned
        | fails left =>
            cases h
            cases hreturned
            rw [ChatBot.is_local_of_not_free hready.1 hready.2]
            simp [FileSystem.checkResourceIsReachable, ChatBot.destinationUrl,
              FileSystem.directory_of_no_folder hnone]
  | probe =>
      simp only [copyStep] at h
      split at h <;> cases h <;> cases hreturned
  | remove =>
      cases h
      cases hreturned
  | copy =>
      obtain ⟨hfree, hdocuments, hfolder⟩ := hready
      rw [ChatBot.is_local_of_not_free hfree ((copy_step_document_directory h).trans hdocuments)]
      have hcopy := FileSystem.copy_item_all_or_nothing rfl hfolder hclean
      simp only [copyStep] at h
      split at h
      · cases h
        cases hreturned
      · rename_i copied heq
        cases h
        cases hreturned
        simpa [heq] using hcopy
  | reload =>
      obtain ⟨hfree, hdocuments, hfolder⟩ := hready
      rw [ChatBot.is_local_of_not_free hfree ((copy_step_document_directory h).trans hdocuments)]
      -- a reload that throws is clean only where there is no directory
      have hsucceeds : fs.checkResourceIsReachable bot.destinationUrl = true →
          outcome.isOk = true ∧ (ChatBot.init fs bot.destinationUrl).isSome = true := by
        intro hsome
        simpa [copyFailsClean, hsome] using hclean
      simp only [copyStep] at h
      split at h
      · rename_i newBot hinit
        cases h
        cases hreturned
        exact (ChatBot.directory_of_init hinit).symm
      · rename_i hfails
        cases h
        cases hreturned
        by_contra hsome
        obtain ⟨hok, hinit⟩ := hsucceeds (by simpa using hsome)
        obtain ⟨newBot, hnewBot⟩ := Option.isSome_iff_exists.mp hinit
        exact hfails newBot (Outcome.eq_ok hok) hnewBot
  | returned => cases h

/-- Reloading the copy is the last thing a call does. -/
theorem copy_step_reload (h : copyStep bot fs .reload outcome = some effect) :
    ∃ copied, effect.stage = .returned copied := by
  simp only [copyStep] at h
  split at h <;> cases h <;> exact ⟨_, rfl⟩

/-- A call comes to the reload with the source at the destination. -/
theorem copy_step_copied (h : copyStep bot fs stage outcome = some effect)
    (hready : stage.Ready bot fs) (hreload : effect.stage = .reload) :
    bot.url ≠ bot.destinationUrl ∧
      effect.fs.directory bot.destinationUrl = effect.fs.directory bot.url := by
  cases stage with
  | guards =>
      simp only [copyStep] at h
      repeat' split at h
      all_goals cases h; cases hreload
  | createFolder =>
      simp only [copyStep] at h
      repeat' split at h
      all_goals cases h; cases hreload
  | probe =>
      simp only [copyStep] at h
      split at h <;> cases h <;> cases hreload
  | remove =>
      cases h
      cases hreload
  | copy =>
      simp only [copyStep] at h
      split at h <;> rename_i copied heq <;> cases h
      · obtain ⟨-, hnone, dir, hdir, hplaced⟩ :=
          FileSystem.copy_item_done rfl hready.2.2 heq
        have hne : bot.url ≠ bot.destinationUrl := by
          intro hsame
          rw [hsame, hnone] at hdir
          cases hdir
        have hframe := FileSystem.directory_copy_of_ne fs bot.url outcome rfl hne
        rw [heq] at hframe
        exact ⟨hne, hplaced.trans (hdir.symm.trans hframe.symm)⟩
      · cases hreload
  | reload =>
      obtain ⟨copied, hreturned⟩ := copy_step_reload h
      rw [hreload] at hreturned
      cases hreturned
  | returned => cases h

/-- A call for a bot that is not free returns `true` with the bot that it has loaded from the
destination, and dispatches a main block in no other case. -/
theorem copy_step_new_bot (h : copyStep bot fs stage outcome = some effect)
    (hfree : bot.isFree = false) :
    effect.stage ≠ .returned true ∧ effect.newBot = none ∨
      effect.stage = .returned true ∧ stage = .reload ∧ effect.fs = fs ∧
        ∃ newBot, ChatBot.init fs bot.destinationUrl = some newBot ∧
          effect.newBot = some newBot := by
  cases stage with
  | reload =>
      simp only [copyStep] at h
      split at h
      · rename_i newBot hinit
        cases h
        exact .inr ⟨rfl, rfl, rfl, newBot, hinit, rfl⟩
      · cases h
        exact .inl ⟨by simp, rfl⟩
  | guards =>
      simp only [copyStep, hfree, Bool.false_eq_true, if_false] at h
      split at h <;> cases h <;> exact .inl ⟨by simp, rfl⟩
  | createFolder =>
      simp only [copyStep] at h
      repeat' split at h
      all_goals cases h; exact .inl ⟨by simp, rfl⟩
  | probe =>
      simp only [copyStep] at h
      split at h <;> cases h <;> exact .inl ⟨by simp, rfl⟩
  | remove =>
      cases h
      exact .inl ⟨by simp, rfl⟩
  | copy =>
      simp only [copyStep] at h
      split at h <;> cases h <;> exact .inl ⟨by simp, rfl⟩
  | returned => cases h

/-- What is at the destination after an operation: what was there before, what a removal has left
or what a copy of the bot's directory has. -/
theorem copy_step_destination (h : copyStep bot fs stage outcome = some effect)
    (hready : stage.Ready bot fs) :
    effect.fs.directory bot.destinationUrl = fs.directory bot.destinationUrl ∨
    stage = .remove ∧ effect.fs.directory bot.destinationUrl = outcome.leftover ∨
    stage = .copy ∧ (fs.directory bot.url).isSome = true ∧
      effect.fs.directory bot.destinationUrl =
        if outcome.isOk then fs.directory bot.url else outcome.leftover := by
  rcases copy_step_fs h with hfs | ⟨-, hcreate⟩ | ⟨rfl, hfs⟩ | ⟨rfl, hfs⟩
  · exact .inl (by rw [hfs])
  · exact .inl (FileSystem.directory_create hcreate _)
  · cases hdirectory : fs.directory bot.destinationUrl with
    | none =>
        refine .inl ?_
        rw [hfs, FileSystem.directory_remove_self outcome rfl hready.2.2, hdirectory]
        rfl
    | some dir =>
        refine .inr (.inl ⟨rfl, ?_⟩)
        rw [hfs, FileSystem.directory_remove_self outcome rfl hready.2.2, hdirectory]
        rfl
  · cases hcopy : fs.copyItem bot.url bot.destinationUrl outcome with
    | mk copied done =>
        rw [hcopy] at hfs
        rw [hfs]
        cases done with
        | true =>
            obtain ⟨rfl, -, dir, hdir, hplaced⟩ := FileSystem.copy_item_done rfl hready.2.2 hcopy
            exact .inr (.inr ⟨rfl, by rw [hdir]; rfl, hplaced.trans hdir.symm⟩)
        | false =>
            rcases FileSystem.copy_item_failed rfl hready.2.2 hcopy with
              ⟨rfl, -⟩ | ⟨-, hsource, left, rfl, hplaced⟩
            · exact .inl rfl
            · exact .inr (.inr ⟨rfl, hsource, hplaced⟩)

/-- A bot that a step installs has been copied by it, and the call goes on to reload it. -/
theorem copy_step_installs (h : copyStep bot fs stage outcome = some effect)
    (hready : stage.Ready bot fs) (hclean : copyFailsClean bot fs stage outcome = true)
    {other : ChatBot} (hbefore : other.isLocal fs = false)
    (hlocal : other.isLocal effect.fs = true) : effect.stage = .reload := by
  obtain ⟨hchanges, hsame⟩ := copy_step_changes h other (by simp [hbefore, hlocal])
  have hfree : other.isFree = false := by
    by_contra hfree
    simp [ChatBot.isLocal, hfree] at hbefore
  cases stage with
  | remove =>
      have hsome : fs.checkResourceIsReachable other.destinationUrl = true := by
        rw [hsame]
        exact hchanges
      rw [ChatBot.is_local_of_not_free hfree hready.2.1, hsome] at hbefore
      cases hbefore
  | copy =>
      obtain ⟨-, hdocuments, hfolder⟩ := hready
      rw [ChatBot.is_local_of_not_free hfree
        ((copy_step_document_directory h).trans hdocuments), hsame] at hlocal
      have hcopy := FileSystem.copy_item_all_or_nothing rfl hfolder hclean
      simp only [copyStep] at h
      split at h <;> rename_i heq <;> cases h
      · rfl
      · simp [heq, hlocal] at hcopy
  | _ => cases hchanges

end AiGramLib
