import StackEscape.Diagnostic.Record
import StackEscape.Proofs.Json.RoundTrip
import StackEscape.Proofs.Rule

/-!
# Logs are read back

A record is written with the names of its fields and is read by them. The text of a log is therefore
an array of records of which each is read as the diagnostic that it was written for.
-/

namespace StackEscape

namespace Json

/-! ## Records -/

theorem textual_ofFields {fields : List (String × Json)} (h : ∀ f ∈ fields, Textual f.2) :
    Textual (ofFields fields) := by
  refine .object (fun m hm => ?_) fun m hm => ?_
  all_goals obtain ⟨f, hf, rfl⟩ := List.mem_map.mp hm
  · exact ⟨f.1, rfl⟩
  · exact h f hf

theorem mapM_eq_some_map {α β : Type} {f : α → Option β} {g : α → β} {l : List α}
    (h : ∀ a ∈ l, f a = some (g a)) : l.mapM f = some (l.map g) := by
  induction l with
  | nil => rfl
  | cons a l ih =>
    obtain ⟨ha, hl⟩ := List.forall_mem_cons.mp h
    rw [List.mapM_cons, ha, ih hl]
    rfl

/-- Among fields of distinct names, only one has the name of a given one. -/
theorem filter_name_eq {fields : List (String × Json)} (h : (fields.map Prod.fst).Nodup)
    {f : String × Json} (hf : f ∈ fields) : fields.filter (·.1 = f.1) = [f] := by
  induction fields with
  | nil => cases hf
  | cons x xs ih =>
    rw [List.map_cons, List.nodup_cons] at h
    obtain ⟨hx, hxs⟩ := h
    rcases List.mem_cons.mp hf with rfl | hf
    · have hothers : xs.filter (·.1 = f.1) = [] := by
        refine List.filter_eq_nil_iff.mpr fun y hy hname => hx ?_
        exact of_decide_eq_true hname ▸ List.mem_map_of_mem hy
      rw [List.filter_cons_of_pos (by simp), hothers]
    · have hname : x.1 ≠ f.1 := fun heq => hx (heq ▸ List.mem_map_of_mem hf)
      rw [List.filter_cons_of_neg (by simpa using hname), ih hxs hf]

/-- A record has the fields that it was made of. -/
theorem fields?_ofFields {fields : List (String × Json)} (h : (fields.map Prod.fst).Nodup) :
    (ofFields fields).fields? (fields.map Prod.fst) = some (fields.map Prod.snd) := by
  have hmembers : (fields.map fun f => (codePoints f.1, f.2)).mapM
      (fun m => (decode? m.1).map (·, m.2)) = some fields := by
    rw [List.mapM_map]
    refine (mapM_eq_some_map (g := id) fun f _ => ?_).trans (congrArg some (List.map_id fields))
    exact congrArg (Option.map (·, f.2)) (decode?_codePoints f.1)
  unfold ofFields fields?
  refine (congrArg (Option.bind · _) hmembers).trans ?_
  rw [Option.bind_some, List.mapM_map]
  refine mapM_eq_some_map fun f hf => ?_
  rw [Function.comp_apply, filter_name_eq h hf]

@[simp]
theorem text?_ofString (s : String) : (ofString s).text? = some s := decode?_codePoints s

@[simp]
theorem enumerator?_ofString (s : String) : (ofString s).enumerator? = some s :=
  decode?_codePoints s

theorem natural?_ofNat {bound n : Nat} (h : n < bound) : (ofNat n).natural? bound = some n := by
  have hdigits : (Nat.toDigits 10 n).all Char.isDigit = true :=
    List.all_eq_true.mpr fun _ => isDigit_of_mem_toDigits
  have hvalue : Nat.ofDigitChars 10 (Nat.toDigits 10 n) 0 = n :=
    Nat.ofDigitChars_toDigits (by decide) (by decide)
  simp only [natural?, ofNat, hvalue, hdigits, h, and_self, if_true]

end Json

open Json (Textual)

/-! ## Parts of a diagnostic -/

theorem Severity.ofId?_id (s : Severity) : Severity.ofId? s.id = some s := by cases s; decide

theorem Confidence.ofId?_id (c : Confidence) : Confidence.ofId? c.id = some c := by
  cases c <;> decide

namespace Location

def Fits (l : Location) : Prop := l.line < bound ∧ l.column < bound

theorem textual_toJson (l : Location) : Textual l.toJson := by
  refine Json.textual_ofFields ?_
  simp only [List.forall_mem_cons]
  exact ⟨.text _, .natural _, .natural _, List.forall_mem_nil _⟩

theorem ofJson?_toJson {l : Location} (h : l.Fits) : ofJson? l.toJson = some l := by
  have hfields : l.toJson.fields? fieldNames =
      some [.ofString l.file, .ofNat l.line, .ofNat l.column] :=
    Json.fields?_ofFields (by decide : fieldNames.Nodup)
  simp [ofJson?, hfields, Json.natural?_ofNat h.1, Json.natural?_ofNat h.2]

end Location

namespace Diagnostic

theorem textual_toJson (d : Diagnostic) : Textual d.toJson := by
  refine Json.textual_ofFields ?_
  simp only [List.forall_mem_cons]
  exact ⟨d.location.textual_toJson, .text _, .text _, .text _, .text _, List.forall_mem_nil _⟩

/-- A record is read as the diagnostic that it was written for. -/
theorem ofJson?_toJson {d : Diagnostic} (h : d.location.Fits) : ofJson? d.toJson = some d := by
  have hfields : d.toJson.fields? fieldNames =
      some [d.location.toJson, .ofString d.severity.id, .ofString d.rule.id, .ofString d.message,
        .ofString d.confidence.id] :=
    Json.fields?_ofFields (by decide : fieldNames.Nodup)
  simp [ofJson?, hfields, Location.ofJson?_toJson h, Severity.ofId?_id, Rule.ofId?_id,
    Confidence.ofId?_id]

end Diagnostic

/-- **The text of a log is read back.** It is one JSON array, as long as the log, whose elements are
read as the diagnostics of the log, in order. -/
theorem Sink.toText_decodes (ds : List Diagnostic)
    (h : ∀ d ∈ ds, d.location.line < UInt32.size ∧ d.location.column < UInt32.size) :
    ∃ elements, Json.ofText? (Sink.log ds).toText = some (.array elements) ∧
      elements.length = ds.length ∧
      ∀ i : Nat, elements[i]?.bind Diagnostic.ofJson? = ds[i]? := by
  have htextual : Textual (.array (ds.map Diagnostic.toJson)) := by
    refine .array fun e he => ?_
    obtain ⟨d, -, rfl⟩ := List.mem_map.mp he
    exact d.textual_toJson
  refine ⟨ds.map Diagnostic.toJson, Json.ofText?_toText htextual, List.length_map _, fun i => ?_⟩
  rw [List.getElem?_map]
  cases hi : ds[i]? with
  | none => rfl
  | some d => exact Diagnostic.ofJson?_toJson (h d (List.mem_of_getElem? hi))

/-- A finding whose texts hold quotes, backslashes, control characters and more than two bytes a
character, on the last line there may be. -/
def Diagnostic.awkward : Diagnostic where
  location := ⟨"a\"b\\c/é.cpp", 4294967295, 0⟩
  severity := .error
  rule := .returnTempPointer
  message := "\x00\x08\t\n\x0c\r\x1f\x7f\n\u2028😀"
  confidence := .inconclusive

theorem Sink.toText_decodes_awkward :
    (∀ d ∈ [Diagnostic.awkward, Diagnostic.awkward],
      d.location.line < UInt32.size ∧ d.location.column < UInt32.size) ∧
    ∃ elements,
      Json.ofText? (Sink.log [Diagnostic.awkward, Diagnostic.awkward]).toText =
        some (.array elements) ∧
      elements.length = 2 ∧
      ∀ i : Nat, elements[i]?.bind Diagnostic.ofJson? =
        [Diagnostic.awkward, Diagnostic.awkward][i]? :=
  ⟨by decide, toText_decodes _ (by decide)⟩

end StackEscape
