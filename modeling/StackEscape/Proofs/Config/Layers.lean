import StackEscape.Config.Layer
import StackEscape.Proofs.Rule

/-!
# Resolving a configuration

Where a configuration file may be, there is nothing, something that cannot be read, a text that is
no configuration, or a configuration. Of the user's and the project's file, the environment and the
overrides, each field takes the value of the highest layer that has one. Only what comes out of
this is validated.
-/

namespace StackEscape

theorem FileContent.read_ofString (s : String) : (ofString s).read = .ok s := by
  have hutf8 : s.toUTF8.IsValidUTF8 := s.isValidUTF8
  simp only [ofString, read, String.fromUTF8?, dif_pos hutf8]
  rfl

theorem Text.pieces_eq_splitOn (sep : Char) (cs : List Char) : pieces sep cs = cs.splitOn sep := by
  induction cs with
  | nil => rfl
  | cons c cs ih =>
    rw [List.splitOn_cons_eq_if_modifyHead, ← ih, pieces]
    by_cases hc : c = sep
    · rw [if_pos hc, if_pos (beq_iff_eq.mpr hc)]
    · rw [if_neg hc, if_neg fun h => hc (beq_iff_eq.mp h)]
      have hne : pieces sep cs ≠ [] := ih ▸ List.splitOn_ne_nil sep cs
      cases hp : pieces sep cs with
      | nil => exact absurd hp hne
      | cons w ws => rfl

/-! ## Files -/

/-- What there is where a configuration file may be. -/
inductive FileState where
  | absent
  | unreadable
  | malformed
  | valid (c : Config)

namespace FileState

def ofText (text : String) : FileState :=
  match (Toml.ofText? text).bind Config.ofEntries? with
  | none => .malformed
  | some c => .valid c

def layer : FileState → Config
  | .valid c => c
  | _ => .empty

def outcome (path : String) : FileState → Except ConfigFault Config
  | .unreadable => .error (.fileNotFound path)
  | .malformed => .error (.malformed path Config.malformedMessage)
  | state => .ok state.layer

end FileState

namespace Surroundings

def fileState (s : Surroundings) (path : String) : FileState :=
  match s.file path with
  | .absent => .absent
  | content =>
    match content.read with
    | .error _ => .unreadable
    | .ok text => .ofText text

theorem fileState_of_text {s : Surroundings} {path text : String}
    (h : s.file path = .ofString text) : s.fileState path = .ofText text := by
  have hread := FileContent.read_ofString text
  rw [fileState, h]
  simp only [FileContent.ofString] at hread ⊢
  rw [hread]

/-- The user's file. Without a home directory there is none. -/
def userState (s : Surroundings) : FileState :=
  match Config.userPath? s with
  | none => .absent
  | some path => s.fileState path

end Surroundings

namespace Config

theorem ofFile_eq (path text : String) :
    ofFile path text = (FileState.ofText text).outcome path := by
  unfold ofFile FileState.ofText
  generalize (Toml.ofText? text).bind ofEntries? = c
  cases c <;> rfl

theorem fileLayer_eq (s : Surroundings) (path : String) :
    fileLayer s path = (s.fileState path).outcome path := by
  unfold fileLayer Surroundings.fileState
  cases s.file path with
  | absent | directory => rfl
  | bytes data =>
    dsimp only
    cases (FileContent.bytes data).read with
    | error reason => rfl
    | ok text => exact ofFile_eq path text

theorem userLayer_of_malformed {s : Surroundings} {path : String} (hpath : userPath? s = some path)
    (h : s.fileState path = .malformed) :
    userLayer s = .error (.malformed path malformedMessage) := by
  simp only [userLayer, hpath, fileLayer_eq, h, FileState.outcome]

/-- A user's file that cannot be read counts as absent. -/
theorem userLayer_of_ne_malformed {s : Surroundings} (h : s.userState ≠ .malformed) :
    userLayer s = .ok s.userState.layer := by
  unfold Surroundings.userState at h ⊢
  unfold userLayer
  cases hpath : userPath? s with
  | none => rfl
  | some path =>
    simp only [hpath] at h
    simp only [fileLayer_eq]
    cases hstate : s.fileState path with
    | malformed => exact absurd hstate h
    | absent | unreadable | valid c => rfl

/-! ## Layers -/

/-- What the environment says about uncertain findings. Only two texts say anything. -/
theorem inconclusive_environmentLayer {s : Surroundings} {b : Bool} :
    (environmentLayer s).inconclusive = some b ↔
      s.environment? "DANGLE_INCONCLUSIVE" = some (if b then "true" else "false") := by
  have hflag : ∀ text, flagOf? text = some b ↔ text = if b then "true" else "false" := by
    intro text
    unfold flagOf?
    split
    · next h => subst h; cases b <;> simp
    · split
      · next h => subst h; cases b <;> simp
      · cases b <;> simp_all
  simp only [environmentLayer, Option.bind_eq_some_iff, hflag, exists_eq_right]

/-- The rules that the environment suppresses: what stands between commas, without the blanks around
it, where anything is left. -/
theorem suppress_environmentLayer (s : Surroundings) :
    (environmentLayer s).suppress =
      (s.environment? "DANGLE_SUPPRESS").elim [] fun text =>
        (((text.toList.splitOn ',').map Text.trim).filter (· ≠ [])).map String.ofList := by
  unfold environmentLayer
  cases s.environment? "DANGLE_SUPPRESS" with
  | none => rfl
  | some text =>
    simp only [Option.map_some, Option.getD_some, Option.elim_some, listOf,
      Text.pieces_eq_splitOn]

/-- The first value among layers, and the first list that is not empty. -/
def resolve (layers : List Config) : Config where
  inconclusive := layers.findSome? Config.inconclusive
  suppress := ((layers.map Config.suppress).find? (· ≠ [])).getD []

/-- Layers are resolved one on top of the other. -/
theorem resolve_cons (c : Config) (layers : List Config) :
    resolve (c :: layers) = (resolve layers).under c := by
  obtain ⟨inconclusive, suppress⟩ := c
  cases inconclusive <;> cases suppress <;> rfl

theorem resolve_singleton (c : Config) : resolve [c] = c := by
  obtain ⟨inconclusive, suppress⟩ := c
  cases inconclusive <;> cases suppress <;> rfl

/-! ## Validation -/

theorem validate_eq_ok_iff {c : Config} :
    c.validate = .ok () ↔ ∀ id ∈ c.suppress, Rule.IsId id := by
  rw [Rule.forall_isId_iff, validate]
  cases Rule.ofIds c.suppress <;> simp

/-- Validation reports the first id that names no rule. -/
theorem validate_eq_error_iff {c : Config} {id : String} :
    c.validate = .error (.validationFailed suppressField (Rule.unknownMessage id)) ↔
      Rule.FirstUnknown c.suppress id := by
  rw [← Rule.ofIds_eq_error_iff, validate]
  cases Rule.ofIds c.suppress with
  | ok rules => simp
  | error s =>
    refine ⟨fun h => ?_, fun h => by rw [Except.error.inj h]⟩
    rw [Rule.unknownMessage_injective (ConfigFault.validationFailed.inj (Except.error.inj h)).2]

/-- A configuration without unknown ids has settings that suppress exactly the rules it names. -/
theorem settings_of_isId {c : Config} (h : ∀ id ∈ c.suppress, Rule.IsId id) :
    ∃ settings, c.settings = .ok settings ∧ settings.inconclusive = c.inconclusive.getD false ∧
      ∀ r : Rule, r ∈ settings.suppressed ↔ r.id ∈ c.suppress := by
  obtain ⟨rules, hok⟩ := Rule.forall_isId_iff.mp h
  have hrules := Rule.ofIds_eq_ok_iff.mp hok
  refine ⟨.suppressing c.wantsInconclusive rules, ?_, rfl, fun r => ?_⟩
  · rw [settings, hok]
  · refine Rule.mem_sorted.trans ⟨fun hr => hrules ▸ List.mem_map_of_mem hr, fun hr => ?_⟩
    obtain ⟨r', hr', hid⟩ := List.mem_map.mp (hrules ▸ hr)
    exact Rule.id_injective hid ▸ hr'

/-! ## Loading -/

section Load

variable {s : Surroundings} {root : String}

theorem load_of_user_malformed {path : String} (hpath : userPath? s = some path)
    (h : s.fileState path = .malformed) (overrides : Option Config) :
    load s root overrides = .error (.malformed path malformedMessage) := by
  rw [load, userLayer_of_malformed hpath h]

theorem load_of_project_unreadable (hu : s.userState ≠ .malformed)
    (h : s.fileState (projectPath root) = .unreadable) (overrides : Option Config) :
    load s root overrides = .error (.fileNotFound (projectPath root)) := by
  simp only [load, userLayer_of_ne_malformed hu, fileLayer_eq, h, FileState.outcome]

theorem load_of_project_malformed (hu : s.userState ≠ .malformed)
    (h : s.fileState (projectPath root) = .malformed) (overrides : Option Config) :
    load s root overrides = .error (.malformed (projectPath root) malformedMessage) := by
  simp only [load, userLayer_of_ne_malformed hu, fileLayer_eq, h, FileState.outcome]

/-- The layers of a configuration, the highest one first. -/
def layers (s : Surroundings) (root : String) (overrides : Option Config) : List Config :=
  [overrides.getD empty, environmentLayer s, (s.fileState (projectPath root)).layer,
    s.userState.layer]

section Read

/-! Once both files are read, what is left is to validate what the layers come to. -/

variable (hu : s.userState ≠ .malformed)
    (hunreadable : s.fileState (projectPath root) ≠ .unreadable)
    (hmalformed : s.fileState (projectPath root) ≠ .malformed) (overrides : Option Config)
include hu hunreadable hmalformed

theorem load_of_read :
    load s root overrides =
      (resolve (layers s root overrides)).validate.map
        fun () => resolve (layers s root overrides) := by
  have hproject : fileLayer s (projectPath root) =
      .ok (s.fileState (projectPath root)).layer := by
    rw [fileLayer_eq]
    cases hstate : s.fileState (projectPath root) with
    | unreadable => exact absurd hstate hunreadable
    | malformed => exact absurd hstate hmalformed
    | absent | valid c => rfl
  have hlayers : resolve (layers s root overrides) =
      ((s.userState.layer.under (s.fileState (projectPath root)).layer).under
        (environmentLayer s)).under (overrides.getD empty) := by
    rw [layers, resolve_cons, resolve_cons, resolve_cons, resolve_singleton]
  simp only [load, userLayer_of_ne_malformed hu, hproject, hlayers]
  generalize Config.validate _ = v
  cases v <;> rfl

theorem load_eq_ok_iff :
    load s root overrides = .ok (resolve (layers s root overrides)) ↔
      ∀ id ∈ (resolve (layers s root overrides)).suppress, Rule.IsId id := by
  rw [← validate_eq_ok_iff, load_of_read hu hunreadable hmalformed]
  cases (resolve (layers s root overrides)).validate <;> simp [Except.map]

theorem load_eq_error_iff (id : String) :
    load s root overrides =
        .error (.validationFailed suppressField (Rule.unknownMessage id)) ↔
      Rule.FirstUnknown (resolve (layers s root overrides)).suppress id := by
  rw [← validate_eq_error_iff, load_of_read hu hunreadable hmalformed]
  cases (resolve (layers s root overrides)).validate <;> simp [Except.map]

end Read

/-- What is loaded has been validated. -/
theorem validate_of_load {overrides : Option Config} {c : Config}
    (h : load s root overrides = .ok c) : c.validate = .ok () := by
  unfold load at h
  split at h
  · cases h
  · split at h
    · cases h
    · dsimp only at h
      split at h
      · cases h
      · next hv =>
        obtain rfl := Except.ok.inj h
        exact hv

end Load

/-- **A configuration is resolved field by field.** A user's file that is no configuration is
reported; else a project's file that cannot be read or is no configuration. Else each field has the
first value among the overrides, the environment, the project's file and the user's, and what comes
out is loaded unless it names an unknown rule, the first of which is reported. What is loaded has
settings that suppress exactly the rules it names. -/
theorem load_resolves (s : Surroundings) (root : String) (overrides : Option Config) :
    (∀ path, userPath? s = some path → s.fileState path = .malformed →
      load s root overrides = .error (.malformed path malformedMessage)) ∧
    (s.userState ≠ .malformed →
      (s.fileState (projectPath root) = .unreadable →
        load s root overrides = .error (.fileNotFound (projectPath root))) ∧
      (s.fileState (projectPath root) = .malformed →
        load s root overrides = .error (.malformed (projectPath root) malformedMessage)) ∧
      (s.fileState (projectPath root) ≠ .unreadable →
        s.fileState (projectPath root) ≠ .malformed →
        let layers := [overrides.getD empty, environmentLayer s,
          (s.fileState (projectPath root)).layer, s.userState.layer]
        let inconclusive := layers.findSome? Config.inconclusive
        let suppress := ((layers.map Config.suppress).find? (· ≠ [])).getD []
        (load s root overrides = .ok ⟨inconclusive, suppress⟩ ↔
          ∀ id ∈ suppress, Rule.IsId id) ∧
        ∀ id, load s root overrides =
            .error (.validationFailed "analysis.suppress" ("unknown rule id '" ++ id ++ "'")) ↔
          Rule.FirstUnknown suppress id)) ∧
    (∀ c, load s root overrides = .ok c → ∃ settings, c.settings = .ok settings ∧
      settings.inconclusive = c.inconclusive.getD false ∧
      ∀ r : Rule, r ∈ settings.suppressed ↔ r.id ∈ c.suppress) ∧
    (∀ b, (environmentLayer s).inconclusive = some b ↔
      s.environment? "DANGLE_INCONCLUSIVE" = some (if b then "true" else "false")) ∧
    (environmentLayer s).suppress =
      (s.environment? "DANGLE_SUPPRESS").elim [] fun text =>
        (((text.toList.splitOn ',').map Text.trim).filter (· ≠ [])).map String.ofList := by
  refine ⟨fun path hpath h => load_of_user_malformed hpath h overrides, fun hu => ?_,
    fun c h => settings_of_isId (validate_eq_ok_iff.mp (validate_of_load h)),
    fun b => inconclusive_environmentLayer, suppress_environmentLayer s⟩
  refine ⟨fun h => load_of_project_unreadable hu h overrides,
    fun h => load_of_project_malformed hu h overrides, fun hunreadable hmalformed => ?_⟩
  exact ⟨load_eq_ok_iff hu hunreadable hmalformed overrides,
    load_eq_error_iff hu hunreadable hmalformed overrides⟩

/-- The user's file is a directory, the project's file names an unknown rule, and the environment
names another one but spells the flag in its own way. -/
def crowded : Surroundings where
  environment? name :=
    if name = "HOME" then some "/home/u"
    else if name = "DANGLE_INCONCLUSIVE" then some "TRUE"
    else if name = "DANGLE_SUPPRESS" then some " returnReference ,,"
    else none
  file path :=
    if path = "/home/u/.dangle/config.toml" then .directory
    else if path = "/p/dangle.toml" then
      .ofString "[analysis]\ninconclusive = true\nsuppress = ['nothing']\n"
    else .absent

theorem load_resolves_crowded :
    crowded.userState = .unreadable ∧
      crowded.fileState (projectPath "/p") = .valid ⟨some true, ["nothing"]⟩ ∧
      (∀ id ∈ ["returnReference"], Rule.IsId id) ∧
      load crowded "/p" none = .ok ⟨some true, ["returnReference"]⟩ := by
  have huser : crowded.userState = .unreadable := by
    have hpath : userPath? crowded = some "/home/u/.dangle/config.toml" := by decide +kernel
    rw [Surroundings.userState, hpath]
    rfl
  have hproject : crowded.fileState (projectPath "/p") = .valid ⟨some true, ["nothing"]⟩ := by
    have hpath : projectPath "/p" = "/p/dangle.toml" := by decide +kernel
    have htext : (Toml.ofText? "[analysis]\ninconclusive = true\nsuppress = ['nothing']\n").bind
        ofEntries? = some ⟨some true, ["nothing"]⟩ := by decide +kernel
    have hfile : crowded.file "/p/dangle.toml" =
        .ofString "[analysis]\ninconclusive = true\nsuppress = ['nothing']\n" := rfl
    rw [hpath, Surroundings.fileState_of_text hfile, FileState.ofText, htext]
  have hids : ∀ id ∈ ["returnReference"], Rule.IsId id :=
    List.forall_mem_singleton.mpr (Rule.isId_id .returnReference)
  have hlayers := ((load_resolves crowded "/p" none).2.1 (by simp [huser])).2.2
    (by simp [hproject]) (by simp [hproject])
  rw [huser, hproject] at hlayers
  exact ⟨huser, hproject, hids, hlayers.1.mpr hids⟩

end Config

end StackEscape
