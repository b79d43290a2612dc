import EditorConfig.Command.Run
import EditorConfig.Proofs.Text.Plain
import EditorConfig.Proofs.Traversal

/-! What is printed for files in turn. Main statement: behind files that are printed a command goes
on with the others, and the first that fails or cannot be named ends it. -/
namespace EditorConfig.Command

structure Answer.IsFailure (a : Answer) : Prop where
  out : a.out = []
  exitCode : a.exitCode ≠ 0
  trouble : a.trouble ≠ some .unprintable

def FailsOnly (properties : Text → Except Answer Properties) : Prop :=
  ∀ file a, properties file = .error a → a.IsFailure

def named (console : Console) (file out : Text) : Text :=
  '[' :: (Text.shown console.terminal file ++ ']' :: '\n' :: out)

/-- No control sequence of a name begins or ends outside of it. -/
theorem line_nameLine (console : Console) (file : Text) :
    console.line (nameLine file) = named console file [] := by
  have hl : nameLine file ++ ['\n'] = '[' :: (file ++ ']' :: ['\n']) := by
    simp [nameLine]
  rw [Console.line, hl, Text.shown_cons_of_ne (by decide), Text.shown_append_cons (by decide),
    Text.shown_cons_of_ne (by decide), Text.shown_nil, named]

theorem named_append (console : Console) (file out : Text) :
    console.line (nameLine file) ++ out = named console file out := by
  simp [line_nameLine, named]

@[simp] theorem Answer.after_after (a : Answer) (u v : Text) :
    (a.after v).after u = a.after (u ++ v) := by
  simp [Answer.after]

section Blocks
variable {console : Console} {properties : Text → Except Answer Properties} {file : Text}

theorem printBlocks_error {a : Answer} (several : Bool) (h : properties file = .error a)
    (rest : List Text) : printBlocks console several properties (file :: rest) = a := by
  rw [printBlocks, h]

/-- A single block is printed as a whole or not at all. -/
theorem printBlocks_ok (console : Console) {m : Properties} (h : properties file = .ok m) :
    (∃ out, printBlocks console false properties [file] = .printed out 0 ∧
      ∀ rest, printBlocks console true properties (file :: rest) =
        if console.prints (nameLine file) then
          (printBlocks console true properties rest).after (named console file out)
        else .unprintable) ∨
    printBlocks console false properties [file] = .unprintable ∧
      ∀ rest, printBlocks console true properties (file :: rest) =
        Answer.unprintable.after
          (if console.prints (nameLine file) then named console file [] else []) := by
  have hs (rest : List Text) : printBlocks console true properties (file :: rest) =
      if console.prints (nameLine file) then
        ((printBlocks console true properties rest).behind console (block false file m)).after
          (console.line (nameLine file))
      else .unprintable := by
    rw [printBlocks, h]
    rfl
  have ha : printBlocks console false properties [file] =
      (Answer.printed [] 0).behind console (block false file m) := by
    rw [printBlocks, h]
    rfl
  cases he : m.entries.isEmpty with
  | true =>
    have hb : block false file m = [] := by
      simp [block, he]
    refine .inl ⟨[], by rw [ha, hb]; rfl, fun rest => ?_⟩
    rw [hs, hb, Answer.behind, line_nameLine]
  | false =>
    have hb : block false file m = [blockLines m] := by
      simp [block, he]
    simp only [hb, Answer.behind] at hs ha
    cases hl : console.prints (blockLines m) with
    | true =>
      refine .inl ⟨console.line (blockLines m), ?_, fun rest => ?_⟩
      · rw [ha, hl]
        simp [Answer.after, Answer.printed]
      · rw [hs, hl, if_pos rfl, Answer.after_after, named_append]
    | false =>
      refine .inr ⟨by rw [ha, hl]; rfl, fun rest => ?_⟩
      rw [hs, hl, line_nameLine]
      cases console.prints (nameLine file) <;> rfl

/-- Files that are printed alone and can be named do not keep the others from being looked at. -/
theorem printBlocks_append (hp : FailsOnly properties) {before : List Text}
    (h : ∀ file ∈ before, (printBlocks console false properties [file]).exitCode = 0 ∧
      console.prints (nameLine file) = true) (rest : List Text) :
    printBlocks console true properties (before ++ rest) =
      (printBlocks console true properties rest).after (before.flatMap fun file =>
        named console file (printBlocks console false properties [file]).out) := by
  induction before with
  | nil => rfl
  | cons file before ih =>
    rw [List.forall_mem_cons] at h
    obtain ⟨⟨hc, hl⟩, h⟩ := h
    cases hf : properties file with
    | error a =>
      rw [printBlocks_error false hf] at hc
      exact absurd hc (hp file a hf).exitCode
    | ok m =>
      rcases printBlocks_ok console hf with ⟨out, ha, hs⟩ | ⟨ha, -⟩
      · rw [List.cons_append, hs, hl, if_pos rfl, ih h, Answer.after_after, List.flatMap_cons, ha]
        rfl
      · rw [ha] at hc
        cases hc

end Blocks

end EditorConfig.Command
