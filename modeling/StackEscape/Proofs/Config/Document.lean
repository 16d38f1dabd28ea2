import StackEscape.Proofs.Config.Layers
import StackEscape.Proofs.Toml.Parser

/-!
# Configurations are read back from TOML

What a configuration is written as is a TOML document with one table, whose two items are read to
the values of the two fields. So every configuration is read back from the text it is written as;
it is accepted there if all rules that it names exist.
-/

namespace StackEscape.Config

open Toml (Item Value)

/-! ## The list of rules -/

theorem toList_quote (s : String) : (Toml.quote s).toList = Toml.quoted s.toList := by
  rw [Toml.quote, String.toList_ofList]

/-- With one rule a line, each line begins with the line end of the one before it. -/
theorem toList_ruleLines (ss : List String) :
    '\n' :: (String.join (ss.map fun s => "    " ++ Toml.quote s ++ ",\n")).toList =
      ss.flatMap Toml.elementLine ++ ['\n'] := by
  induction ss with
  | nil => rfl
  | cons s ss ih =>
    rw [List.map_cons, List.flatMap_cons, List.append_assoc, ← ih]
    simp [Toml.elementLine, toList_quote]

theorem toList_suppressText_lines (s s' : String) (ss : List String) :
    (suppressText (s :: s' :: ss)).toList =
      '[' :: ((s :: s' :: ss).flatMap Toml.elementLine ++ ['\n', ']']) := by
  rw [suppressText, String.toList_append, String.toList_append]
  · have hlines := congrArg (· ++ [']']) (toList_ruleLines (s :: s' :: ss))
    rw [List.append_assoc] at hlines
    exact congrArg ('[' :: ·) hlines
  · exact List.cons_ne_nil _ _
  · simp

/-- In each of its layouts, the list is an array that is read to the rules it was made of. -/
theorem exists_toList_suppressText (ss : List String) :
    ∃ body, (suppressText ss).toList = '[' :: body ∧ ∀ depth rest,
      Toml.arrayBody (Toml.value depth) (body ++ rest) = some (.array (ss.map .string), rest) := by
  match ss with
  | [] => exact ⟨[']'], rfl, fun _ _ => Toml.arrayBody_nil⟩
  | [s] =>
    refine ⟨Toml.quoted s.toList ++ [']'], ?_, fun depth rest => ?_⟩
    · simp [suppressText, toList_quote]
    · rw [List.append_assoc]
      exact Toml.arrayBody_singleton s
  | s :: s' :: ss =>
    refine ⟨_, toList_suppressText_lines s s' ss, fun depth rest => ?_⟩
    rw [List.append_assoc]
    exact Toml.arrayBody_elementLines (s :: s' :: ss)

/-! ## The items of the document -/

def inconclusiveItem (b : Bool) : Item :=
  ⟨"inconclusive", (if b then "true" else "false").toList, .boolean b⟩

def suppressItem (ss : List String) : Item :=
  ⟨"suppress", (suppressText ss).toList, .array (ss.map .string)⟩

/-- What a configuration says, item by item. -/
def items (c : Config) : List Item :=
  c.inconclusive.toList.map inconclusiveItem ++ [suppressItem c.suppress]

theorem reads_inconclusiveItem (b : Bool) : (inconclusiveItem b).Reads where
  isBareKey := (by decide : Toml.IsBareKey "inconclusive")
  not_space rest := by cases b <;> rfl
  value rest := by
    cases b
    · exact Toml.value_false _ _
    · exact Toml.value_true _ _

theorem reads_suppressItem (ss : List String) : (suppressItem ss).Reads := by
  obtain ⟨body, htext, hbody⟩ := exists_toList_suppressText ss
  refine ⟨(by decide : Toml.IsBareKey "suppress"), fun rest => ?_, fun rest => ?_⟩
  · rw [suppressItem, htext]
    rfl
  · rw [suppressItem, htext]
    exact hbody _ _

theorem reads_of_mem_items {c : Config} : ∀ item ∈ c.items, item.Reads := by
  intro item hmem
  rcases List.mem_append.mp hmem with hmem | hmem
  · obtain ⟨b, -, rfl⟩ := List.mem_map.mp hmem
    exact reads_inconclusiveItem b
  · rw [List.mem_singleton.mp hmem]
    exact reads_suppressItem c.suppress

theorem nodup_keys_items (c : Config) : (c.items.map Item.key).Nodup := by
  obtain ⟨inconclusive, suppress⟩ := c
  cases inconclusive with
  | none => exact (by decide : ["suppress"].Nodup)
  | some b => exact (by decide : ["inconclusive", "suppress"].Nodup)

theorem toToml_eq_lines (c : Config) : c.toToml =
    String.ofList ('[' :: ("analysis".toList ++ ']' :: '\n' :: c.items.flatMap Item.line)) := by
  obtain ⟨inconclusive, suppress⟩ := c
  refine String.toList_inj.mp ?_
  rcases inconclusive with _ | _ | _ <;>
    simp [toToml, inconclusiveLine, items, inconclusiveItem, suppressItem, Item.line]

/-! ## Reading what was written -/

theorem texts?_strings (ss : List String) : texts? (.array (ss.map .string)) = some ss := by
  rw [texts?, List.mapM_map]
  exact List.mapM_pure.trans (congrArg some (List.map_id ss))

theorem ofParts?_values (c : Config) :
    ofParts? (c.inconclusive.map .boolean) (some (.array (c.suppress.map .string))) = some c := by
  obtain ⟨inconclusive, suppress⟩ := c
  simp only [ofParts?, readOr, texts?_strings]
  cases inconclusive <;> rfl

theorem ofEntries?_items (c : Config) :
    ofEntries? [("analysis", .table .header (c.items.map Item.entry))] = some c := by
  have hparts := ofParts?_values c
  obtain ⟨inconclusive, suppress⟩ := c
  cases inconclusive <;> exact hparts

/-- Every configuration is read back, also one that names rules that do not exist. -/
theorem ofFile_toToml (path : String) (c : Config) : ofFile path c.toToml = .ok c := by
  rw [ofFile, toToml_eq_lines, Toml.ofText?_table (by decide) reads_of_mem_items
    (nodup_keys_items c), Option.bind_some, ofEntries?_items]

/-- **The text that a configuration is written as gives the configuration back**, field for field;
it is accepted if and only if every rule that it names exists. -/
theorem ofToml_toToml_eq_ok_iff (c : Config) :
    ofToml c.toToml = .ok c ↔ ∀ id ∈ c.suppress, Rule.IsId id := by
  rw [← validate_eq_ok_iff, ofToml, ofFile_toToml]
  dsimp only
  cases c.validate <;> simp

end StackEscape.Config
