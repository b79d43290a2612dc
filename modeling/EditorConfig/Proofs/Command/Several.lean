import EditorConfig.Proofs.Command.Blocks
import EditorConfig.Proofs.Command.Words
import EditorConfig.Proofs.FileSystem.Tree

/-! Several files on one command line. Main statement: a command on several files says in turn
what it says on each of them alone, and ends at the first that it fails on or cannot name. -/
namespace EditorConfig.Command

def answerOn (w : World) (options files : List Text) : Answer :=
  (run w ("resolve".toList :: (options ++ files))).1

structure IsFile (word : Text) : Prop where
  operand : word.head? ≠ some '-'
  name : '\x00' ∉ word

section Words
variable {w : World} {options files stops : List Text} {configName version : Option Text}

end Words

/-- Before any file is looked at, it is settled how the properties of files are found. -/
structure Settles (w : World) (options : List Text)
    (properties : Text → Except Answer Properties) : Prop where
  fails : FailsOnly properties
  answers : ∀ files, files ≠ [] → (∀ file ∈ files, IsFile file) →
    answerOn w options files = printBlocks w.host.console (1 < files.length) properties files

section Settles
variable {w : World} {options files stops : List Text} {configName version : Option Text}
  {properties : Text → Except Answer Properties}

theorem Settles.alone (h : Settles w options properties) {file : Text} (hf : IsFile file) :
    answerOn w options [file] = printBlocks w.host.console false properties [file] :=
  h.answers [file] (List.cons_ne_nil file []) (List.forall_mem_singleton.2 hf)

theorem Settles.several (h : Settles w options properties) (hf : ∀ file ∈ files, IsFile file)
    (hn : 2 ≤ files.length) :
    answerOn w options files = printBlocks w.host.console true properties files := by
  have hs : decide (1 < files.length) = true := decide_eq_true hn
  rw [h.answers files (List.ne_nil_of_length_pos (by omega)) hf, hs]

end Settles

structure Passes (w : World) (options : List Text) (file : Text) : Prop where
  exitCode : (answerOn w options [file]).exitCode = 0
  name : w.host.console.prints (nameLine file) = true

def printed (w : World) (options files : List Text) : Text :=
  files.flatMap fun file => named w.host.console file (answerOn w options [file]).out

section Several
variable {w : World} {options files stops : List Text} {configName version : Option Text}
  {properties : Text → Except Answer Properties}

theorem Settles.append (h : Settles w options properties) {before rest : List Text}
    (hf : ∀ file ∈ before ++ rest, IsFile file) (hn : 2 ≤ (before ++ rest).length)
    (hb : ∀ file ∈ before, Passes w options file) :
    answerOn w options (before ++ rest) =
      (printBlocks w.host.console true properties rest).after (printed w options before) := by
  have ha : ∀ file ∈ before,
      answerOn w options [file] = printBlocks w.host.console false properties [file] :=
    fun file hm => h.alone (hf file (List.mem_append_left rest hm))
  have hc : ∀ file ∈ before,
      (printBlocks w.host.console false properties [file]).exitCode = 0 ∧
        w.host.console.prints (nameLine file) = true := by
    intro file hm
    rw [← ha file hm]
    exact ⟨(hb file hm).exitCode, (hb file hm).name⟩
  have hp : printed w options before = before.flatMap fun file =>
      named w.host.console file (printBlocks w.host.console false properties [file]).out := by
    rw [printed, List.flatMap_def, List.flatMap_def,
      List.map_congr_left fun file hm => by rw [ha file hm]]
  rw [h.several hf hn, printBlocks_append h.fails hc, hp]

end Several

end EditorConfig.Command
