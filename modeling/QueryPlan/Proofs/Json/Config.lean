import QueryPlan.Json.Config
import QueryPlan.Proofs.Json.Codec

/-!
# Configurations survive their documents

A configuration that is written as a document, with one item a line, is read back as it was, whatever
the names of rules in it are.

Main results:

- Theorems `Optimizer.Settings.faithful` and `Config.faithful`: settings and configurations are
  represented faithfully.
- Theorem `Config.ofText_toText`: a configuration is read back from its document.
-/

namespace QueryPlan

open Json (Codec)

/-- Settings are represented faithfully. -/
theorem Optimizer.Settings.faithful (s : Optimizer.Settings) : Codec.Faithful s := by
  have hrules : Codec.Faithful s.rules :=
    Codec.faithful_list fun name _ => Codec.faithful_string name
  have hvalidate := Codec.faithful_bool s.validate
  have htrace := Codec.faithful_bool s.trace
  refine Codec.faithful_record jsonFields [] [_, _, _] (fun _ _ => rfl) rfl rfl (by decide)
    (by simp) ?_ fun room hroom => ?_
  · simpa using ⟨hrules.proper, hvalidate.proper, htrace.proper⟩
  · simp only [List.forall_mem_cons] at hroom
    simp [hrules.decode, hvalidate.decode, htrace.decode, hroom]

namespace Config

/-- Configurations are represented faithfully. -/
theorem faithful (c : Config) : Codec.Faithful c := by
  have hoptimizer := c.optimizer.faithful
  refine Codec.faithful_record jsonFields [] [_] (fun _ _ => rfl) rfl rfl (by decide) (by simp) ?_
    fun room hroom => ?_
  · simpa using hoptimizer.proper
  · simp only [List.forall_mem_cons] at hroom
    simp [hoptimizer.decode, hroom]

/-- A configuration opens three arrays and objects within each other. -/
theorem depth_le (c : Config) : (Codec.encode c).depth ≤ 3 := by
  have hrules : Json.itemsDepth (c.optimizer.rules.map Codec.encode) ≤ 0 := by
    refine Json.itemsDepth_le.2 fun j hj => ?_
    obtain ⟨name, -, rfl⟩ := List.mem_map.1 hj
    exact Nat.le_refl 0
  simp [Codec.encode, Json.record, Json.depth, Json.fieldsDepth] at hrules ⊢
  omega

/-- A configuration is read back from the document that is written for it. -/
theorem ofText_toText (c : Config) : ofText c.toText = .ok c := by
  have hdepth : (Codec.encode c).depth ≤ Codec.nestingLimit :=
    Nat.le_trans c.depth_le (by decide)
  exact c.faithful.read_eq_ok Json.Style.blank_spacious hdepth

end Config

end QueryPlan
