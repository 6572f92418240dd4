import CoolTree.Grammar.Packaged
import CoolTree.Parse.Source
import CoolTree.Proofs.Search

/-!
# The packaged language

The packaged language lacks nothing, so every parser takes it, and its levels are those of Cool:
all operators group to the left, and an assignment binds least of all.
-/

namespace CoolTree

theorem Language.lack?_cool : Language.cool.lack? = none := by
  rw [lack?_eq, cool, definition_ofFlawless]
  decide +kernel

theorem Language.levels_cool :
    Language.cool.levels =
      { call := 8, super := 7, comp := 6, isvoid := 5, negation := 1, assign := 0
        lessEqual := ⟨2, .left⟩, less := ⟨2, .left⟩, equal := ⟨2, .left⟩
        plus := ⟨3, .left⟩, minus := ⟨3, .left⟩, times := ⟨4, .left⟩, divide := ⟨4, .left⟩ } := by
  simp only [levels, binding, precedence?_eq, operator?_eq, cool, definition_ofFlawless]
  decide +kernel

theorem Parser.setLanguage_of_lack? (p : Parser) {l : Language} (h : l.lack? = none) :
    p.setLanguage l = .ok { p with language := some l } := by
  rw [setLanguage, h]

theorem Parser.setLanguage_cool (p : Parser) :
    p.setLanguage .cool = .ok { p with language := some .cool } :=
  p.setLanguage_of_lack? Language.lack?_cool

theorem Parser.language_of_setLanguage {p q : Parser} {l : Language}
    (h : p.setLanguage l = .ok q) : q.language = some l := by
  unfold setLanguage at h
  split at h <;> cases h
  rfl

/-- Under any configuration every source is parsed with the language that was taken. -/
theorem Parser.parse?_of_setLanguage {p q : Parser} {l : Language} (h : p.setLanguage l = .ok q)
    (config : Config) (source : String) :
    (q.setConfig config).parse? source = some (Tree.parse l config source) := by
  rw [parse?, setConfig, language_of_setLanguage h, Option.map_some]

theorem Parser.lack?_of_setLanguage {p q : Parser} {l : Language}
    (h : p.setLanguage l = .ok q) : l.lack? = none := by
  unfold setLanguage at h
  split at h
  · assumption
  · cases h

theorem Language.isMetBy_of_lack? {l : Language} (h : l.lack? = none) (need : Need)
    (hneed : need ∈ Need.all) : need.isMetBy l = true := by
  have hmet := List.find?_eq_none.mp h need hneed
  rwa [Bool.not_eq_true', Bool.not_eq_false] at hmet

end CoolTree
