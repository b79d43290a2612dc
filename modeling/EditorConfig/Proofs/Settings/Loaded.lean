import EditorConfig.Proofs.FileSystem.Tree
import EditorConfig.Proofs.Settings.Toml.Document
import EditorConfig.Settings.User

/-! Settings that are loaded from a file. Main statement: a file whose bytes are a text leaves the
default settings with its own put over them, or is reported and leaves the defaults alone; bytes
that are no text are not reported but end the loading. -/
namespace EditorConfig.Settings
open Toml (FewDigits isOpening)

def text? : Node → Option Text
  | .file bytes => (String.fromUTF8? bytes).map String.toList
  | _ => none

def IsGarbled : Node → Prop
  | .file bytes => String.fromUTF8? bytes = none
  | _ => False

variable {read : Text → Except Toml.ReadFailure Table} {env : Environment} {disk : Disk}
  {node : Node}
  {p : Text}

/-- What comes of a node that is found where the settings are. Either all that its text says is
put over the defaults, or nothing of it and it is reported. -/
structure Outcome (read : Text → Except Toml.ReadFailure Table) (defaults : Table) (node : Node)
    (result : Except SettingsError Loaded) : Prop where
  garbled : IsGarbled node → result = .error .notText
  loaded : ¬ IsGarbled node → ∃ loaded, result = .ok loaded ∧
    ((loaded.warned = false ∧ ∃ text table, text? node = some text ∧ read text = .ok table ∧
        Value.IsOverride (.table defaults) (.table table) (.table loaded.table)) ∨
      (loaded = ⟨defaults, true⟩ ∧ ∀ text, text? node = some text → read text = .error .invalid))

theorem not_isGarbled {text : Text} (h : text? node = some text) : ¬ IsGarbled node := by
  cases node with
  | file bytes =>
    intro hg
    rw [IsGarbled] at hg
    rw [text?, hg] at h
    cases h
  | directory | sealed => exact id

theorem outcome_reported {defaults : Table} (hg : ¬ IsGarbled node)
    (ht : ∀ text, text? node = some text → read text = .error .invalid) :
    Outcome read defaults node (.ok ⟨defaults, true⟩) :=
  ⟨fun h => absurd h hg, fun _ => ⟨_, rfl, .inr ⟨rfl, ht⟩⟩⟩

/-- A reader that gives well-formed tables, or says that a text is invalid. -/
structure IsReader (read : Text → Except Toml.ReadFailure Table) (node : Node) : Prop where
  distinct : ∀ text table, text? node = some text → read text = .ok table → Value.IsDistinct table
  invalid : ∀ text failure, text? node = some text → read text = .error failure →
    failure = .invalid

theorem outcome_ofBytes {bytes : ByteArray} (defaults : Table)
    (hr : IsReader read (.file bytes)) :
    Outcome read defaults (.file bytes) (ofBytes read defaults bytes) := by
  rw [ofBytes]
  cases hs : String.fromUTF8? bytes with
  | none => exact ⟨fun _ => rfl, fun hg => absurd hs hg⟩
  | some content =>
    have ht : text? (.file bytes) = some content.toList := by
      rw [text?, hs]
      rfl
    have hg := not_isGarbled ht
    simp only
    cases hc : read content.toList with
    | ok table =>
      have ho : Value.IsOverride (.table defaults) (.table table) _ :=
        Value.isOverride_overriddenBy (hr.distinct _ _ ht hc)
      rw [Value.overriddenBy_table] at ho
      exact ⟨fun h => absurd h hg, fun _ => ⟨_, rfl, .inl ⟨rfl, _, table, ht, hc, ho⟩⟩⟩
    | error failure =>
      have hf := hr.invalid _ failure ht hc
      subst hf
      refine outcome_reported hg fun text hs => ?_
      rw [ht] at hs
      cases hs
      exact hc

theorem loadWith_file {bytes : ByteArray} (hp : path env disk = .ok p)
    (hl : look disk p = .ok (some (.file bytes))) :
    loadWith read env disk = ofBytes read (defaults env) bytes := by
  rw [loadWith, hp]
  simp only [bind, Except.bind, hl]

theorem outcome_loadWith (hp : path env disk = .ok p) (hl : look disk p = .ok (some node))
    (hr : IsReader read node) : Outcome read (defaults env) node (loadWith read env disk) := by
  cases node with
  | file bytes =>
    rw [loadWith_file hp hl]
    exact outcome_ofBytes (defaults env) hr
  | directory | sealed =>
    rw [loadWith, hp]
    simp only [bind, Except.bind, hl]
    exact outcome_reported id fun _ h => by cases h

/-- A text with few digits in a row that opens little is read, or it is invalid. -/
theorem isReader_read {limit : Nat}
    (hm : ∀ text, text? node = some text → FewDigits text ∧ text.countP isOpening ≤ limit) :
    IsReader (Toml.read limit) node where
  distinct text table _ hr := by
    have hy := Toml.yields_read limit text
    rwa [hr] at hy
  invalid text failure ht hr := by
    have hy := Toml.yields_read limit text
    rw [hr] at hy
    cases failure with
    | invalid => rfl
    | numeralTooLong => exact absurd (hm text ht).1 hy
    | tooDeep =>
      have hn : limit < 0 + text.countP isOpening := hy
      have := (hm text ht).2
      omega

/-- Whatever is found where the settings are, they are loaded, unless it is a file that is in no
UTF-8: by any reader of texts, and by the one at hand if no number is too long and there is room for
all that is opened. -/
theorem load_found (hp : path env disk = .ok p) (hl : look disk p = .ok (some node)) :
    (∀ read, IsReader read node → Outcome read (defaults env) node (loadWith read env disk)) ∧
      ∀ limit, (∀ text, text? node = some text →
          FewDigits text ∧ text.countP isOpening ≤ limit) →
        Outcome (Toml.read limit) (defaults env) node (load limit env disk) :=
  ⟨fun _ hr => outcome_loadWith hp hl hr, fun _ hm => outcome_loadWith hp hl (isReader_read hm)⟩

theorem fewDigits_of_length {text : Text} (h : text.length ≤ Numeral.maxDigits) :
    FewDigits text :=
  fun _ hr _ => (hr.length_le.trans (List.length_filter_le _ _)).trans h

def homeWith (bytes : ByteArray) : Disk :=
  ⟨.ofList [([".edconfrc".toList, "h".toList], .file bytes)], []⟩

def homeEnvironment : Environment := [("HOME".toList, "/h".toList)]

def quiet : Text := "[logger]\npath = \"\" # no file\n".toList

theorem load_found_quiet :
    path homeEnvironment (homeWith (Disk.encode quiet)) = .ok "/h/.edconfrc".toList ∧
      look (homeWith (Disk.encode quiet)) "/h/.edconfrc".toList =
        .ok (some (.file (Disk.encode quiet))) ∧
      Outcome (Toml.read 10) (defaults homeEnvironment) (.file (Disk.encode quiet))
        (load 10 homeEnvironment (homeWith (Disk.encode quiet))) ∧
      ∃ loaded, load 10 homeEnvironment (homeWith (Disk.encode quiet)) = .ok loaded ∧
        loaded.warned = false ∧ loggerPath homeEnvironment loaded = .ok [] ∧
        stopDirectories homeEnvironment loaded = .ok [] := by
  have hp : path homeEnvironment (homeWith (Disk.encode quiet)) = .ok "/h/.edconfrc".toList := by
    decide +kernel
  have ht : text? (.file (Disk.encode quiet)) = some quiet := by
    decide +kernel
  have ho := (load_found hp rfl).2 10 fun text hs => by
    rw [ht] at hs
    cases hs
    exact ⟨fewDigits_of_length (by decide), by decide⟩
  obtain ⟨loaded, hr, -⟩ := ho.loaded (not_isGarbled ht)
  have hw : (load 10 homeEnvironment (homeWith (Disk.encode quiet))).map (·.warned) =
      .ok false := by
    decide +kernel
  have hl : (load 10 homeEnvironment (homeWith (Disk.encode quiet))).bind
      (loggerPath homeEnvironment) = .ok [] := by
    decide +kernel
  have hs : (load 10 homeEnvironment (homeWith (Disk.encode quiet))).bind
      (stopDirectories homeEnvironment) = .ok [] := by
    decide +kernel
  rw [hr] at hw hl hs
  exact ⟨hp, rfl, ho, loaded, hr, Except.ok.inj hw, hl, hs⟩

def garbledBytes : ByteArray := ⟨#[0xFF]⟩

theorem load_garbled :
    path homeEnvironment (homeWith garbledBytes) = .ok "/h/.edconfrc".toList ∧
      look (homeWith garbledBytes) "/h/.edconfrc".toList = .ok (some (.file garbledBytes)) ∧
      load 10 homeEnvironment (homeWith garbledBytes) = .error .notText ∧
      ¬ ∃ loaded, load 10 homeEnvironment (homeWith garbledBytes) = .ok loaded := by
  have hp : path homeEnvironment (homeWith garbledBytes) = .ok "/h/.edconfrc".toList := by
    decide +kernel
  have hg : String.fromUTF8? garbledBytes = none := by
    decide +kernel
  have he : load 10 homeEnvironment (homeWith garbledBytes) = .error .notText := by
    rw [load, loadWith_file hp rfl, ofBytes, hg]
  refine ⟨hp, rfl, he, fun h => ?_⟩
  obtain ⟨loaded, hr⟩ := h
  rw [he] at hr
  cases hr

end EditorConfig.Settings
