import EditorConfig.Proofs.Source.Assignments
import EditorConfig.Proofs.Text.Blanked

/-! Lines that an observer stops. Main statement: a text is read without them as if they were
empty. -/
namespace EditorConfig
variable {reading limit : Nat} {α β ε : Type}

theorem filter_mapM_cons (f : α → Except ε β) (wanted : β → Bool) (x : α) (xs : List α) :
    ((x :: xs).mapM f).map (·.filter wanted) = (f x).bind fun y =>
      ((xs.mapM f).map (·.filter wanted)).map fun ys => if wanted y then y :: ys else ys := by
  rw [List.mapM_cons]
  cases f x with
  | error e => rfl
  | ok y =>
    cases xs.mapM f with
    | error e => rfl
    | ok ys => exact congrArg Except.ok List.filter_cons

/-- Steps with results that are not wanted may be left out, and only the others have to be the
same. -/
theorem filter_mapM {f g : α → Except ε β} {keep : α → Bool} {wanted : β → Bool}
    (hk : ∀ x, keep x = true → f x = g x)
    (hn : ∀ x, keep x = false → ∃ y, f x = .ok y ∧ wanted y = false) (xs : List α) :
    (xs.mapM f).map (·.filter wanted) = ((xs.filter keep).mapM g).map (·.filter wanted) := by
  induction xs with
  | nil => rfl
  | cons x xs ih =>
    rw [filter_mapM_cons, ih, List.filter_cons]
    cases h : keep x with
    | true => rw [if_pos rfl, filter_mapM_cons, hk x h]
    | false =>
      obtain ⟨y, hy, hw⟩ := hn x h
      rw [if_neg Bool.false_ne_true, hy]
      cases (xs.filter keep).mapM g <;> simp [Except.map, Except.bind, hw]

namespace Statement

def counts : Statement → Bool
  | .skipped => false
  | _ => true

end Statement

namespace Source

theorem split_filter (ss : List Statement) : split (ss.filter Statement.counts) = split ss := by
  induction ss with
  | nil => rfl
  | cons s ss ih =>
    cases s with
    | skipped => exact ih
    | malformed line => exact ih
    | header pattern line =>
      have hs : (Statement.header pattern line).counts = true := rfl
      rw [List.filter_cons_of_pos hs, split, split, ih]
    | option key value =>
      have hs : (Statement.option key value).counts = true := rfl
      rw [List.filter_cons_of_pos hs, split, split, ih]

theorem malformed_filter (ss : List Statement) :
    (ss.filter Statement.counts).filterMap Statement.malformed? =
      ss.filterMap Statement.malformed? := by
  rw [List.filterMap_filter]
  refine congrArg (List.filterMap · ss) (funext fun s => ?_)
  cases s <;> rfl

def finish (ss : List Statement) : Except Error Source :=
  match ss.filterMap Statement.malformed? with
  | [] => .ok (ofStatements ss)
  | lines => .error (.malformed lines none)

theorem finish_filter (ss : List Statement) : finish (ss.filter Statement.counts) = finish ss := by
  rw [finish, malformed_filter, finish, ofStatements, ofStatements, split_filter]

def readWatched (limit : Nat) (observer : Observer) (line : Text) : Except Error Statement :=
  if observer.line (Text.bareLine line) then Statement.read limit (Text.bareLine line)
  else .ok .skipped

/-- Only the statements that count make up the source. -/
theorem result_ofText_filter (observer : Observer) (text : Text) :
    (ofText limit observer text).result =
      (((Text.lines text).mapM (readWatched limit observer)).map (·.filter Statement.counts)).bind
        finish := by
  rw [ofText, Watched.result_bind, result_readLines, List.mapM_map]
  change ((Text.lines text).mapM (readWatched limit observer) >>= _) = _
  cases (Text.lines text).mapM (readWatched limit observer) with
  | error e => rfl
  | ok ss =>
    refine Eq.trans ?_ (finish_filter ss).symm
    simp only [bind, Except.bind, finish]
    cases ss.filterMap Statement.malformed? <;> rfl

/-- Of the lines only those count that are not empty and that the observer lets pass. -/
theorem filter_readWatched (observer : Observer) (lines : List Text) :
    (lines.mapM (readWatched limit observer)).map (·.filter Statement.counts) =
      ((lines.filter fun l => observer.line (Text.bareLine l) && l ≠ []).mapM
        (readWatched limit .silent)).map (·.filter Statement.counts) := by
  refine filter_mapM (fun l hl => ?_) (fun l hl => ⟨.skipped, ?_, rfl⟩) lines
  · rw [Bool.and_eq_true] at hl
    rw [readWatched, if_pos hl.1]
    rfl
  · rw [Bool.and_eq_false_iff, decide_eq_false_iff_not, not_not] at hl
    rw [readWatched]
    rcases hl with hl | rfl
    · rw [if_neg (by simp [hl])]
    · split <;> rfl

/-- Lines that an observer stops are read like empty lines. -/
theorem result_ofText_blanked (observer : Observer) (text : Text) :
    (ofText limit .silent (Text.blanked (fun l => !observer.line (Text.bareLine l)) text)).result =
      (ofText limit observer text).result := by
  have hl := Text.filter_lines_blanked (fun l => !observer.line (Text.bareLine l)) text
  simp only [Bool.not_not] at hl
  have hs : ∀ lines : List Text, (lines.filter fun l => Observer.silent.line (Text.bareLine l) &&
      l ≠ []) = lines.filter (· ≠ []) := fun _ => rfl
  rw [result_ofText_filter, result_ofText_filter, filter_readWatched .silent,
    filter_readWatched observer, hs, hl]

/-- The options for a path depend only on what an observer does with options. -/
theorem options_congr {observer observer' : Observer} (h : observer.option = observer'.option)
    (source : Source) (path directory : Text) :
    source.options limit observer path directory =
      source.options limit observer' path directory := by
  have ho : ∀ options, offer observer options = offer observer' options := by
    intro options
    induction options with
    | nil => rfl
    | cons option options ih => rw [offer, offer, h, ih]
  have hv : ∀ sections, visitAll limit observer path directory sections =
      visitAll limit observer' path directory sections := by
    intro sections
    induction sections with
    | nil => rfl
    | cons s sections ih => rw [visitAll, visitAll, ih, Section.visit, Section.visit, ho]
  rw [options, options, hv]

/-- A text whose lines an observer stops is read for a path like one with empty lines. -/
theorem result_read_blanked {observer : Observer} (ho : observer.option = Observer.silent.option)
    (text path directory : Text) :
    (do
      let source ← ofText reading .silent
        (Text.blanked (fun l => !observer.line (Text.bareLine l)) text)
      return (source.isRoot, ← source.options limit .silent path directory)).result =
    (do
      let source ← ofText reading observer text
      return (source.isRoot, ← source.options limit observer path directory)).result := by
  rw [Watched.result_bind, Watched.result_bind, result_ofText_blanked]
  simp only [options_congr ho]

end Source
end EditorConfig
