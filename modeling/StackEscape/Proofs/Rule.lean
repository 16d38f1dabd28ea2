import StackEscape.Rule

/-!
# Ids of rules

Rules and their ids determine each other. A list of ids is read as a whole or refused for the first
id in it that names no rule.
-/

namespace StackEscape.Rule

def IsId (s : String) : Prop := ∃ r : Rule, r.id = s

theorem isId_id (r : Rule) : IsId r.id := ⟨r, rfl⟩

theorem ofId?_id (r : Rule) : ofId? r.id = some r := by cases r <;> decide

theorem ofId?_eq_some_iff {s : String} {r : Rule} : ofId? s = some r ↔ r.id = s := by
  constructor
  · intro h
    simpa using List.find?_some h
  · rintro rfl
    exact ofId?_id r

theorem ofId?_eq_none_iff {s : String} : ofId? s = none ↔ ¬ IsId s := by
  simp only [Option.eq_none_iff_forall_ne_some, ne_eq, ofId?_eq_some_iff, IsId, not_exists]

/-- Distinct rules have distinct ids. -/
theorem id_injective {r r' : Rule} (h : r.id = r'.id) : r = r' :=
  Option.some.inj ((ofId?_id r).symm.trans (ofId?_eq_some_iff.mpr h.symm))

theorem unknownMessage_injective {s s' : String} (h : unknownMessage s = unknownMessage s') :
    s = s' := (String.append_right_inj _).mp ((String.append_left_inj _).mp h)

theorem mem_sorted {r : Rule} {rules : List Rule} : r ∈ sorted rules ↔ r ∈ rules := by
  simp only [sorted, List.mem_filter, mem_all, true_and, List.contains_iff_mem]

/-! ## Lists of ids -/

/-- `s` is the first of the ids that names no rule. -/
def FirstUnknown (ids : List String) (s : String) : Prop :=
  ∃ known rest, ids = known ++ s :: rest ∧ (∀ x ∈ known, IsId x) ∧ ¬ IsId s

theorem ofIds_cons_id (r : Rule) (rest : List String) :
    ofIds (r.id :: rest) = (ofIds rest).map (r :: ·) := by
  rw [ofIds, ofId?_id]

theorem ofIds_cons_of_not_isId {s : String} (h : ¬ IsId s) (rest : List String) :
    ofIds (s :: rest) = .error s := by
  rw [ofIds, ofId?_eq_none_iff.mpr h]

theorem ofIds_map_id (rules : List Rule) : ofIds (rules.map id) = .ok rules := by
  induction rules with
  | nil => rfl
  | cons r rest ih => rw [List.map_cons, ofIds_cons_id, ih]; rfl

theorem ofIds_of_firstUnknown {ids : List String} {s : String} (h : FirstUnknown ids s) :
    ofIds ids = .error s := by
  obtain ⟨known, rest, rfl, hknown, hs⟩ := h
  induction known with
  | nil => exact ofIds_cons_of_not_isId hs rest
  | cons x xs ih =>
    obtain ⟨⟨r, rfl⟩, hxs⟩ := List.forall_mem_cons.mp hknown
    rw [List.cons_append, ofIds_cons_id, ih hxs]
    rfl

/-- Either all ids of a list name rules, or one of them is the first that does not. -/
theorem named_or_firstUnknown (ids : List String) :
    (∃ rules : List Rule, rules.map id = ids) ∨ ∃ s, FirstUnknown ids s := by
  induction ids with
  | nil => exact .inl ⟨[], rfl⟩
  | cons x rest ih =>
    by_cases hx : IsId x
    · obtain ⟨r, rfl⟩ := hx
      rcases ih with ⟨rules, rfl⟩ | ⟨s, known, rest, rfl, hknown, hs⟩
      · exact .inl ⟨r :: rules, rfl⟩
      · exact .inr ⟨s, r.id :: known, rest, rfl,
          List.forall_mem_cons.mpr ⟨isId_id r, hknown⟩, hs⟩
    · exact .inr ⟨x, [], rest, rfl, fun _ hy => (nomatch hy), hx⟩

theorem ofIds_eq_ok_iff {ids : List String} {rules : List Rule} :
    ofIds ids = .ok rules ↔ rules.map id = ids := by
  refine ⟨fun h => ?_, fun h => h ▸ ofIds_map_id rules⟩
  rcases named_or_firstUnknown ids with ⟨rules', rfl⟩ | ⟨s, hs⟩
  · rw [Except.ok.inj (h.symm.trans (ofIds_map_id rules'))]
  · rw [ofIds_of_firstUnknown hs] at h
    cases h

theorem ofIds_eq_error_iff {ids : List String} {s : String} :
    ofIds ids = .error s ↔ FirstUnknown ids s := by
  refine ⟨fun h => ?_, ofIds_of_firstUnknown⟩
  rcases named_or_firstUnknown ids with ⟨rules, rfl⟩ | ⟨s', hs'⟩
  · rw [ofIds_map_id] at h
    cases h
  · rwa [Except.error.inj (h.symm.trans (ofIds_of_firstUnknown hs'))]

/-- A list of ids is read if and only if all of them name rules. -/
theorem forall_isId_iff {ids : List String} :
    (∀ s ∈ ids, IsId s) ↔ ∃ rules, ofIds ids = .ok rules := by
  constructor
  · intro h
    rcases named_or_firstUnknown ids with ⟨rules, rfl⟩ | ⟨s, known, rest, rfl, -, hs⟩
    · exact ⟨rules, ofIds_map_id rules⟩
    · exact absurd (h s (List.mem_append_right _ List.mem_cons_self)) hs
  · rintro ⟨rules, hrules⟩ s hs
    obtain ⟨r, -, rfl⟩ := List.mem_map.mp (ofIds_eq_ok_iff.mp hrules ▸ hs)
    exact isId_id r

end StackEscape.Rule
