import CoolTree.Grammar.Language
import CoolTree.Proofs.Validity

/-!
# The packaged language

The grammar of Cool has no flaw, so it makes a language.
-/

namespace CoolTree

theorem Grammar.Definition.flaw?_cool : cool.flaw? = none := by
  rw [flaw?_eq_none_iff]
  constructor
  all_goals decide +kernel

def Language.cool : Language :=
  .ofFlawless Grammar.Artifact.version .cool Grammar.Definition.flaw?_cool

end CoolTree
