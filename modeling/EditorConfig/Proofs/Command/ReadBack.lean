import EditorConfig.Command.Run
import EditorConfig.FileSystem.Memory
import EditorConfig.Proofs.Cascade.Printable

/-! Blocks of properties that are read back. Main statement: a block that is printed for what a
resolution finds has one line for each property, and cut at its first equals sign each line gives
the key and the value. -/
namespace EditorConfig

namespace Command

def readBlock (text : Text) : List (Text × Option Text) :=
  if text = [] then [] else (text.splitOn '\n').map cutAtEquals

theorem cutAtEquals_append {key : Text} (h : '=' ∉ key) (value : Text) :
    cutAtEquals (key ++ '=' :: value) = (key, some value) := by
  have hk : ∀ c ∈ key, (c != '=') = true := by
    intro c hc
    rw [bne_iff_ne]
    rintro rfl
    exact h hc
  have hs : (key ++ '=' :: value).span (· != '=') = (key, '=' :: value) := by
    rw [List.span_eq_takeWhile_dropWhile, List.takeWhile_append_of_pos hk,
      List.dropWhile_append_of_pos hk, List.takeWhile_cons_of_neg (by decide),
      List.dropWhile_cons_of_neg (by decide), List.append_nil]
  rw [cutAtEquals, hs]

theorem blockLines_eq_nil_iff (m : Properties) : blockLines m = [] ↔ m.entries = [] := by
  rw [blockLines]
  cases m.entries with
  | nil => exact iff_of_true rfl rfl
  | cons e rest =>
    refine iff_of_false (fun h => ?_) (List.cons_ne_nil e rest)
    have hm : '=' ∈ ['\n'].intercalate ((e :: rest).map fun e => e.1 ++ '=' :: e.2) := by
      cases rest with
      | nil => simp
      | cons => simp [List.intercalate_cons_cons]
    rw [h] at hm
    cases hm

theorem readBlock_blockLines {m : Properties} (h : m.AllPrintable) :
    readBlock (blockLines m) = m.entries.map fun e => (e.1, some e.2) := by
  have hp : ∀ e ∈ m.entries, Printable e.1 e.2 :=
    fun e he => h e.1 e.2 (OrderedMap.get?_eq_some_iff.2 he)
  rw [readBlock]
  split
  next hn => rw [(blockLines_eq_nil_iff m).1 hn, List.map_nil]
  next hn =>
    have hl : ∀ line ∈ m.entries.map fun e => e.1 ++ '=' :: e.2, '\n' ∉ line := by
      intro line hm
      obtain ⟨e, he, rfl⟩ := List.mem_map.1 hm
      have hf := hp e he
      simp [hf.key.2, hf.value.2]
    have hs : m.entries.map (fun e => e.1 ++ '=' :: e.2) ≠ [] :=
      fun he => hn ((blockLines_eq_nil_iff m).2 (List.map_eq_nil_iff.1 he))
    rw [blockLines, List.splitOn_intercalate '\n' hl hs, List.map_map]
    exact List.map_congr_left fun e he => cutAtEquals_append (hp e he).equals e.2

end Command

namespace Cascade
variable {c : Cascade} {observer : Observer} {stops : List Text} {path : Text}

/-- What is printed for a file tells its properties, in their order, and nothing else; without
properties nothing is printed. -/
theorem readBlock_of_resolve {m : Properties}
    (h : (c.resolve observer stops path).result = .ok m) :
    Command.readBlock (Command.blockLines m) = m.entries.map (fun e => (e.1, some e.2)) ∧
      (Command.blockLines m = [] ↔ m.entries = []) ∧
      ∀ e ∈ m.entries, e.1 ≠ [] ∧ '=' ∉ e.1 ∧ e.1.IsLine ∧ e.2.IsLine := by
  have hm := allPrintable_resolve h
  refine ⟨Command.readBlock_blockLines hm, Command.blockLines_eq_nil_iff m, fun e he => ?_⟩
  have hp := hm e.1 e.2 (OrderedMap.get?_eq_some_iff.2 he)
  exact ⟨hp.ne_nil, hp.equals, hp.key, hp.value⟩

def signs : Cascade where
  configName := defaultConfigName
  version := currentVersion
  limits := ⟨100, 100⟩
  files := (Memory.ofFiles
    [("/.editorconfig".toList, "[*]\rİ x : a=b\r\nindent_size = TAB\ntab_width == 4 ; n".toList),
     ("/p/.editorconfig".toList, "[*]\n\uFEFFk=\"\"".toList)]).fileSystem

theorem readBlock_signs :
    ∃ m, (signs.resolve .silent [] "/p/f".toList).result = .ok m ∧
      Command.blockLines m = "i\u0307 x=a=b\nindent_size== 4\ntab_width== 4\nk=".toList ∧
      Command.readBlock (Command.blockLines m) = m.entries.map (fun e => (e.1, some e.2)) ∧
      (Command.blockLines m = [] ↔ m.entries = []) ∧
      ∀ e ∈ m.entries, e.1 ≠ [] ∧ '=' ∉ e.1 ∧ e.1.IsLine ∧ e.2.IsLine := by
  have hb : (signs.resolve .silent [] "/p/f".toList).result.map Command.blockLines =
      .ok "i\u0307 x=a=b\nindent_size== 4\ntab_width== 4\nk=".toList := by
    decide +kernel
  cases hr : (signs.resolve .silent [] "/p/f".toList).result with
  | error e =>
    rw [hr] at hb
    cases hb
  | ok m =>
    rw [hr] at hb
    exact ⟨m, rfl, Except.ok.inj hb, readBlock_of_resolve hr⟩

end Cascade
end EditorConfig
