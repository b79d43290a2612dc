import EditorConfig.Proofs.OrderedMap
import EditorConfig.Proofs.Source.Visits

/-! A file read in one pass. Main statement: the options of a source for a path are the map of all
assignments under headers that accept the path, line after line, with repeated keys. -/
namespace EditorConfig
variable {reading limit : Nat}

namespace Source

def statements (limit : Nat) (text : Text) : Except Error (List Statement) := do
  let statements ← ((Text.lines text).map Text.bareLine).mapM (Statement.read limit)
  match statements.filterMap Statement.malformed? with
  | [] => return statements
  | lines => throw (.malformed lines none)

/-- The assignments under headers that accept a path. `inForce` tells whether the last header
does. -/
def assignments (accepts : Text → Except Error Bool) :
    Bool → List Statement → Except Error (List (Text × Text))
  | _, [] => return []
  | _, .header pattern _ :: rest => do assignments accepts (← accepts pattern) rest
  | inForce, .option key value :: rest => do
    let more ← assignments accepts inForce rest
    return if inForce then (key, withoutComment value) :: more else more
  | inForce, _ :: rest => assignments accepts inForce rest

theorem result_ofText (text : Text) :
    (ofText limit .silent text).result = (statements limit text).map ofStatements := by
  rw [ofText, Watched.result_bind, result_readLines, statements]
  simp only [Observer.silent, if_true]
  cases ((Text.lines text).map Text.bareLine).mapM (Statement.read limit) with
  | error e => rfl
  | ok statements =>
    simp only [bind, Except.bind]
    cases statements.filterMap Statement.malformed? <;> rfl

/-- The assignments of a file's lines are those of its sections, and of what stands before the
first header if that is in force. -/
theorem assignments_eq_visitAll (path directory : Text) (m : Properties) (inForce : Bool)
    (statements : List Statement)
    (h : ∀ pattern line, .header pattern line ∈ statements →
      ∀ p, headerMatches limit directory pattern path ≠ .error (.invalidPattern p)) :
    (assignments (headerMatches limit directory · path) inForce statements).map m.insertAll =
      (visitAll limit .silent path directory (split statements).2).result.map fun visits =>
        (m.insertAll (if inForce then
          (split statements).1.map fun e => (e.1, withoutComment e.2) else [])).insertAll
            (visits.flatMap Visit.accepted) := by
  induction statements generalizing m inForce with
  | nil => cases inForce <;> rfl
  | cons statement rest ih =>
    have ih' := fun m inForce =>
      ih m inForce fun pattern line hp => h pattern line (List.mem_cons_of_mem statement hp)
    cases statement with
    | skipped => exact ih' m inForce
    | malformed line => exact ih' m inForce
    | option key value =>
      cases inForce with
      | true =>
        refine Eq.trans ?_ (ih' (m.insert key (withoutComment value)) true)
        rw [assignments]
        cases assignments (headerMatches limit directory · path) true rest <;> rfl
      | false =>
        refine Eq.trans ?_ (ih' m false)
        rw [assignments]
        cases assignments (headerMatches limit directory · path) false rest <;> rfl
    | header pattern line =>
      have hv := result_visitAll_cons .silent path directory
        ⟨pattern, .ofList ((split rest).1.map fun e => (e.1, withoutComment e.2)), line⟩
        (split rest).2 (h pattern line List.mem_cons_self)
      rw [Observer.kept_silent] at hv
      rw [assignments, split, hv]
      cases headerMatches limit directory pattern path with
      | error e => rfl
      | ok accepted =>
        -- the section holds a map of its options, but assigning that is assigning them in turn
        have ha : m.insertAll (if accepted then (OrderedMap.ofList
              ((split rest).1.map fun e => (e.1, withoutComment e.2))).entries else []) =
            m.insertAll (if accepted then
              (split rest).1.map fun e => (e.1, withoutComment e.2) else []) := by
          cases accepted with
          | true => exact OrderedMap.insertAll_entries_ofList m _
          | false => rfl
        have hm : m.insertAll (if inForce then
            ([] : List (Text × Text)).map fun e => (e.1, withoutComment e.2) else []) = m := by
          cases inForce <;> rfl
        refine (ih' m accepted).trans ?_
        simp only [hm, ← ha, Except.bind]
        cases (visitAll limit .silent path directory (split rest).2).result with
        | error e => rfl
        | ok visits => exact congrArg Except.ok (OrderedMap.insertAll_append m _ _).symm

theorem mem_split {s : Section} {statements : List Statement} (h : s ∈ (split statements).2) :
    .header s.header s.line ∈ statements := by
  induction statements with
  | nil => simp [split] at h
  | cons statement rest ih =>
    cases statement with
    | header pattern line =>
      rcases List.mem_cons.1 h with rfl | h
      · exact List.mem_cons_self
      · exact List.mem_cons_of_mem _ (ih h)
    | skipped | option | malformed => exact List.mem_cons_of_mem _ (ih h)

/-- The options of a source are its assignments, merged. -/
theorem result_options (path directory : Text) (statements : List Statement)
    (h : ∀ pattern line, .header pattern line ∈ statements →
      ∀ p, headerMatches limit directory pattern path ≠ .error (.invalidPattern p)) :
    ((ofStatements statements).options limit .silent path directory).result =
      (assignments (headerMatches limit directory · path) false statements).map
        OrderedMap.ofList := by
  have ha := assignments_eq_visitAll path directory .empty false statements h
  rw [options, Watched.result_bind]
  refine Eq.trans ?_ ha.symm
  cases hr : (visitAll limit .silent path directory (split statements).2).result with
  | error e => simp [ofStatements, hr, bind, Except.bind, Except.map]
  | ok visits =>
    have hv := readable_visitAll .silent path directory
      (fun s hs => h s.header s.line (mem_split hs)) hr
    simp only [ofStatements, hr, bind, Except.bind, Except.map, hv]
    rfl

end Source

theorem Statement.ofHeader_of_read {written pattern line : Text}
    (h : read limit written = .ok (.header pattern line)) :
    ∃ m, Matcher.ofHeader limit pattern ['/'] = .ok m := by
  unfold read at h
  split at h
  · cases h
  · split at h
    · split at h
      · next m hm =>
        cases h
        exact ⟨m, hm⟩
      · cases h
      · cases h
    · split at h <;> cases h

namespace Source

theorem mapM_of_statements {text : Text} {ss : List Statement}
    (h : statements limit text = .ok ss) :
    ((Text.lines text).map Text.bareLine).mapM (Statement.read limit) = .ok ss := by
  rw [statements] at h
  cases hr : ((Text.lines text).map Text.bareLine).mapM (Statement.read limit) with
  | error e =>
    rw [hr] at h
    cases h
  | ok read =>
    rw [hr] at h
    simp only [bind, Except.bind] at h
    split at h
    · cases h
      rfl
    · cases h

theorem ofHeader_of_mem_statements {text pattern line : Text} {ss : List Statement}
    (h : statements limit text = .ok ss) (hp : .header pattern line ∈ ss) :
    ∃ m, Matcher.ofHeader limit pattern ['/'] = .ok m := by
  obtain ⟨written, -, hr⟩ := mem_of_mapM (mapM_of_statements h) hp
  exact Statement.ofHeader_of_read hr

/-- In one pass over a file that can be read, only its headers can fail. -/
theorem result_options_of_statements {text : Text} {ss : List Statement}
    (h : statements reading text = .ok ss) (path directory : Text) :
    ((ofStatements ss).options limit .silent path directory).result =
      (assignments (headerMatches limit directory · path) false ss).map OrderedMap.ofList := by
  refine result_options path directory ss fun pattern line hp => ?_
  obtain ⟨m, hm⟩ := ofHeader_of_mem_statements h hp
  exact headerMatches_ne_invalid hm directory path

/-- Whether a text declares the root, and what it assigns for a path. -/
theorem result_ofText_options (text path directory : Text) :
    (ofText reading .silent text >>= fun source =>
      (source.isRoot, ·) <$> source.options limit .silent path directory).result =
      (statements reading text).bind fun ss =>
        (assignments (headerMatches limit directory · path) false ss).map fun assigned =>
          ((ofStatements ss).isRoot, OrderedMap.ofList assigned) := by
  rw [Watched.result_bind, result_ofText]
  cases h : statements reading text with
  | error e => rfl
  | ok ss =>
    have ho := @result_options_of_statements reading limit text ss h path directory
    simp only [Except.map, bind, Except.bind, Watched.result_map, ho]
    cases assignments (headerMatches limit directory · path) false ss <;> rfl

end Source
end EditorConfig
