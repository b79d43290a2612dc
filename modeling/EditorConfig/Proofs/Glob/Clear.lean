import EditorConfig.Glob.Matcher

/-! Texts in which some characters stand only behind a backslash. Main statement: whatever scans
a glob for one of them passes over such a text. -/
namespace EditorConfig.Glob

/-- None of the `stops` stands in the text without a backslash that quotes it. -/
inductive Clear (stops : Text) : Text → Prop where
  | nil : Clear stops []
  | quoted (c : Char) {text : Text} : Clear stops text → Clear stops ('\\' :: c :: text)
  | bare {c : Char} {text : Text} : c ∉ stops → c ≠ '\\' → Clear stops text →
    Clear stops (c :: text)

section
variable {stops : Text}

theorem clear_append {u v : Text} (hu : Clear stops u) (hv : Clear stops v) :
    Clear stops (u ++ v) := by
  induction hu with
  | nil => exact hv
  | quoted c _ ih => exact .quoted c ih
  | bare hc hb _ ih => exact .bare hc hb ih

theorem clear_of_forall {text : Text} (h : ∀ c ∈ text, c ∉ stops ∧ c ≠ '\\') :
    Clear stops text := by
  induction text with
  | nil => exact .nil
  | cons c text ih =>
    obtain ⟨hc, hb⟩ := h c List.mem_cons_self
    exact .bare hc hb (ih fun d hd => h d (List.mem_cons_of_mem c hd))

theorem clear_flatMap {α : Type} {f : α → Text} {xs : List α} (h : ∀ x, Clear stops (f x)) :
    Clear stops (xs.flatMap f) := by
  induction xs with
  | nil => exact .nil
  | cons x xs ih => exact clear_append (h x) ih

/-- A cut never falls into a text that is clear of what it looks for. -/
theorem cut?_append {stop avoid : Char} (hs : stop ∈ stops) (ha : avoid ∈ stops)
    (hq : '\\' ∉ stops) {text : Text} (h : Clear stops text) (rest : Text) :
    cut? stop avoid false (text ++ rest) =
      (cut? stop avoid false rest).map fun uv => (text ++ uv.1, uv.2) := by
  have hqs : '\\' ≠ stop := fun e => hq (e ▸ hs)
  have hqa : '\\' ≠ avoid := fun e => hq (e ▸ ha)
  induction h with
  | nil => simp
  | quoted c _ ih => simp [cut?, hqs, hqa, ih, Function.comp_def]
  | @bare c text hc hb _ ih =>
    have hcs : c ≠ stop := fun e => hc (e ▸ hs)
    have hca : c ≠ avoid := fun e => hc (e ▸ ha)
    have hcq : (c == '\\') = false := beq_false_of_ne hb
    simp [cut?, hcs, hca, hcq, ih, Function.comp_def]

theorem countUnescaped_append {stop : Char} (hs : stop ∈ stops) (hq : '\\' ∉ stops) {text : Text}
    (h : Clear stops text) (rest : Text) :
    countUnescaped stop false (text ++ rest) = countUnescaped stop false rest := by
  have hqs : '\\' ≠ stop := fun e => hq (e ▸ hs)
  induction h with
  | nil => rfl
  | quoted c _ ih => simpa [countUnescaped, hqs] using ih
  | @bare c text hc hb _ ih =>
    have hcs : c ≠ stop := fun e => hc (e ▸ hs)
    have hcq : (c == '\\') = false := beq_false_of_ne hb
    simpa [countUnescaped, hcs, hcq] using ih

theorem countUnescaped_eq_zero {c : Char} {text : Text} (h : c ∉ text) (escaped : Bool) :
    countUnescaped c escaped text = 0 := by
  fun_induction countUnescaped c escaped text with
  | case1 => rfl
  | case2 d rest ih => exact ih fun hc => h (List.mem_cons_of_mem d hc)
  | case3 d rest ih =>
    rw [List.mem_cons, not_or] at h
    rw [ih h.2, if_neg (Ne.symm h.1)]

theorem ne_of_isWildcard {c d : Char} (hc : isWildcard c = false) (hd : isWildcard d = true) :
    c ≠ d := by
  rintro rfl
  simp [hc] at hd

/-- A quoted text is clear of everything that is quoted. -/
theorem clear_quote (hs : ∀ s ∈ stops, isWildcard s = true) (text : Text) :
    Clear stops (quote text) := by
  refine clear_flatMap fun c => ?_
  cases hc : isWildcard c with
  | true => exact .quoted c .nil
  | false =>
    refine .bare (fun h => ?_) (ne_of_isWildcard hc (by decide)) .nil
    rw [hs c h] at hc
    cases hc

end

end EditorConfig.Glob
