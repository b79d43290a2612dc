import EditorConfig.Proofs.Cascade.FlatPass

/-! What a resolution depends on. Main statement: a run that finds the same files in the
directories it visits has the same result and reports the same events, whatever other files
there are. -/
namespace EditorConfig

namespace Watched
variable {α β : Type}

def Visits (w : Watched α) (directory : Text) : Prop := .directory directory ∈ w.events

theorem visits_report_bind {directory : Text} (next : Unit → Watched α) :
    (report (.directory directory) >>= next).Visits directory := List.mem_cons_self

theorem visits_bind {w : Watched α} {directory : Text} (h : w.Visits directory)
    (next : α → Watched β) : (w >>= next).Visits directory := by
  cases hw : w.result with
  | error e =>
    rw [bind_error hw]
    exact h
  | ok a =>
    rw [bind_ok hw]
    exact List.mem_append_left _ h

structure IsCongruence (R : ∀ {α : Type}, Watched α → Watched α → Prop) : Prop where
  refl : ∀ {α : Type} (w : Watched α), R w w
  bind : ∀ {α β : Type} {w w' : Watched α} {next next' : α → Watched β}, R w' w →
    (∀ a, w.result = .ok a → R (next' a) (next a)) → R (w' >>= next') (w >>= next)

theorem isCongruence_eq : IsCongruence fun {_} w' w => w' = w where
  refl _ := rfl
  bind {_ _ w _ _ _} h hn := by
    rw [h]
    cases hw : w.result with
    | error e => rw [bind_error hw, bind_error hw]
    | ok a => rw [bind_ok hw, bind_ok hw, hn a hw]

theorem isCongruence_result : IsCongruence fun {_} w' w => w'.result = w.result where
  refl _ := rfl
  bind {_ _ w _ _ _} h hn := by
    cases hw : w.result with
    | error e => rw [bind_error hw, bind_error (h.trans hw)]
    | ok a => rw [bind_ok hw, bind_ok (h.trans hw), hn a hw]

variable {R : ∀ {α : Type}, Watched α → Watched α → Prop}

/-- What is known of the directories that two steps visit is known of those that are visited after
the first. -/
theorem IsCongruence.bind_of_visits (hr : IsCongruence R) {w w' : Watched α}
    {next next' : α → Watched β} {P : Text → Prop} (hw : R w' w)
    (h : ∀ d, (w >>= next).Visits d → P d)
    (hn : ∀ a, (∀ d, (next a).Visits d → P d) → R (next' a) (next a)) :
    R (w' >>= next') (w >>= next) := by
  refine hr.bind hw fun a ha => hn a fun d hd => h d ?_
  rw [bind_ok ha]
  exact List.mem_append_right w.events hd

end Watched

namespace Cascade
variable {c c' : Cascade} {observer observer' : Observer} {stops : List Text} {path : Text}
variable {R : ∀ {α : Type}, Watched α → Watched α → Prop}
variable {limits : Limits}

/-- Walks are related if they are so in the directories that one of them visits and may look
into. -/
theorem walk_related (hr : Watched.IsCongruence R) (ho : observer'.directory = observer.directory)
    {directories : List Text} {found : Properties}
    (h : ∀ d, (c.walk observer stops path directories found).Visits d →
      d ∈ directories → observer.directory d = true →
        R (c'.directoryOptions observer' path d) (c.directoryOptions observer path d)) :
    R (c'.walk observer' stops path directories found)
      (c.walk observer stops path directories found) := by
  induction directories generalizing found with
  | nil => exact hr.refl _
  | cons directory farther ih =>
    rw [walk] at h ⊢
    rw [walk]
    have hd := h directory (Watched.visits_report_bind _) List.mem_cons_self
    refine hr.bind_of_visits (hr.refl _) h fun _ h => ?_
    rw [ho]
    cases hp : observer.directory directory with
    | false =>
      rw [if_neg Bool.false_ne_true, if_neg Bool.false_ne_true]
      exact hr.refl _
    | true =>
      rw [hp] at h
      rw [if_pos rfl, if_pos rfl]
      refine hr.bind_of_visits (hd hp) h fun options h => ?_
      obtain ⟨isRoot, options⟩ := options
      cases he : isRoot || stops.contains (Path.normal directory) with
      | true =>
        simp only [he, if_true]
        exact hr.refl _
      | false =>
        simp only [he, Bool.false_eq_true, if_false] at h ⊢
        exact ih fun d hv hm => h d hv (List.mem_cons_of_mem directory hm)

theorem resolve_related (hr : Watched.IsCongruence R) {name version : Text}
    {files files' : FileSystem} (hf : observer'.file = observer.file)
    (ho : observer'.directory = observer.directory)
    (h : ∀ d, (resolve ⟨name, version, files, limits⟩ observer stops path).Visits d →
      d ∈ Path.ancestors path → observer.directory d = true →
        R (directoryOptions ⟨name, version, files', limits⟩ observer' path d)
          (directoryOptions ⟨name, version, files, limits⟩ observer path d)) :
    R (resolve ⟨name, version, files', limits⟩ observer' stops path)
      (resolve ⟨name, version, files, limits⟩ observer stops path) := by
  rw [resolve] at h ⊢
  rw [resolve]
  refine hr.bind_of_visits (hr.refl _) h fun _ h => ?_
  refine hr.bind_of_visits (hr.refl _) h fun _ h => ?_
  rw [hf]
  cases hp : observer.file path with
  | false =>
    rw [if_neg Bool.false_ne_true, if_neg Bool.false_ne_true]
    exact hr.refl _
  | true =>
    rw [hp] at h
    rw [if_pos rfl, if_pos rfl]
    exact hr.bind (walk_related hr ho fun d hd => h d (Watched.visits_bind hd _))
      fun _ _ => hr.refl _

/-- Whatever files there are, a resolution depends only on those of the directories that it
visits and may look into. -/
theorem resolve_congr {name version : Text} {files files' : FileSystem}
    (h : ∀ d, (resolve ⟨name, version, files, limits⟩ observer stops path).Visits d →
      d ∈ Path.ancestors path → observer.directory d = true →
        directoryOptions ⟨name, version, files', limits⟩ observer path d =
          directoryOptions ⟨name, version, files, limits⟩ observer path d) :
    resolve ⟨name, version, files', limits⟩ observer stops path =
      resolve ⟨name, version, files, limits⟩ observer stops path :=
  resolve_related Watched.isCongruence_eq rfl rfl h

end Cascade

namespace Memory

/-- Two lists of files have the same text under a name in a directory, or neither has any. A file
without a name in a directory of separators is the directory itself; such a one has to be known
to both, or to neither. -/
structure AgreeIn (name : Text) (files files' : List (Text × Text)) (directory : Text) : Prop where
  config : (OrderedMap.ofList files').get? (Path.join directory name) =
    (OrderedMap.ofList files).get? (Path.join directory name)
  known : name = [] → (∀ c ∈ directory, c = '/') →
    (directory ∈ (ofFiles files').directories ↔ directory ∈ (ofFiles files).directories)

theorem config?_eq_of_agreeIn {files files' : List (Text × Text)} {name path directory : Text}
    (hs : '/' ∉ name) (hd : directory ∈ Path.ancestors path)
    (h : AgreeIn name files files' directory) :
    (ofFiles files').config? name directory = (ofFiles files).config? name directory := by
  by_cases hn : name = [] → ∃ c ∈ directory, c ≠ '/'
  · rw [config?_ofFiles files' hd hs hn, config?_ofFiles files hd hs hn, h.config]
  · rw [Classical.not_imp] at hn
    obtain ⟨hz, ha⟩ := hn
    have hk := h.known hz fun c hc => by_contra fun hne => ha ⟨c, hc, hne⟩
    have hf : (ofFiles files').files.get? (Path.join directory name) =
        (ofFiles files).files.get? (Path.join directory name) := h.config
    rw [config?, config?, hf]
    simp only [List.contains_iff_mem, hk]

end Memory

namespace Cascade
variable {limits : Limits}

/-- Files that are stored elsewhere than in the directories a run visits are of no effect on it:
they change neither its result nor any event. -/
theorem resolve_eq_of_agree {files files' : List (Text × Text)} {name : Text} (hs : '/' ∉ name)
    (version : Text) (observer : Observer) (stops : List Text) (path : Text)
    (h : ∀ d, (resolve ⟨name, version, (Memory.ofFiles files).fileSystem, limits⟩ observer stops
      path).Visits d → observer.directory d = true → Memory.AgreeIn name files files' d) :
    resolve ⟨name, version, (Memory.ofFiles files').fileSystem, limits⟩ observer stops path =
      resolve ⟨name, version, (Memory.ofFiles files).fileSystem, limits⟩ observer stops path := by
  refine resolve_congr fun d hv hd ho => ?_
  have hc := Memory.config?_eq_of_agreeIn hs hd (h d hv ho)
  rw [directoryOptions_memory, directoryOptions_memory, hc]

def rooted : List (Text × Text) := [("/p/.editorconfig".toList, "root=true\n[*]\na=1".toList)]

def amongOthers : List (Text × Text) :=
  ("/.editorconfig".toList, "broken".toList) :: ("/q/.editorconfig".toList, "[*]\na=2".toList) ::
    ("/p/other".toList, "[*]\na=3".toList) :: rooted

theorem visits_rooted {directory : Text} (h : (resolve ⟨".editorconfig".toList, currentVersion,
    (Memory.ofFiles rooted).fileSystem, ⟨100, 100⟩⟩ .silent [] "/p/x".toList).Visits directory) :
    directory = "/p".toList := by
  have he : (resolve ⟨".editorconfig".toList, currentVersion,
      (Memory.ofFiles rooted).fileSystem, ⟨100, 100⟩⟩ .silent [] "/p/x".toList).events =
        [.file "/p/x".toList, .directory "/p".toList, .config "/p/.editorconfig".toList,
          .line "root=true".toList, .line "[*]".toList, .line "a=1".toList,
          .option "a".toList "1".toList, .finished "/p/x".toList] := by decide +kernel
  rw [Watched.Visits, he] at h
  simpa using h

theorem agree_amongOthers :
    '/' ∉ ".editorconfig".toList ∧
      (∀ d, (resolve ⟨".editorconfig".toList, currentVersion,
          (Memory.ofFiles rooted).fileSystem, ⟨100, 100⟩⟩ .silent [] "/p/x".toList).Visits d →
        Observer.silent.directory d = true →
          Memory.AgreeIn ".editorconfig".toList rooted amongOthers d) ∧
      resolve ⟨".editorconfig".toList, currentVersion,
          (Memory.ofFiles amongOthers).fileSystem, ⟨100, 100⟩⟩ .silent [] "/p/x".toList =
        resolve ⟨".editorconfig".toList, currentVersion,
          (Memory.ofFiles rooted).fileSystem, ⟨100, 100⟩⟩ .silent [] "/p/x".toList := by
  have hs : '/' ∉ ".editorconfig".toList := by decide
  have ha : ∀ d, (resolve ⟨".editorconfig".toList, currentVersion,
      (Memory.ofFiles rooted).fileSystem, ⟨100, 100⟩⟩ .silent [] "/p/x".toList).Visits d →
        Observer.silent.directory d = true →
          Memory.AgreeIn ".editorconfig".toList rooted amongOthers d := by
    intro d hv _
    rw [visits_rooted hv]
    exact ⟨by decide, nofun⟩
  exact ⟨hs, ha, resolve_eq_of_agree hs currentVersion .silent [] _ ha⟩

def nameless : List (Text × Text) := [("/".toList, "[*]\nk=v".toList)]

/-- Only another file makes the topmost directory known, and with it the file that has no name. -/
theorem nameless_depends :
    (∀ d, (resolve ⟨[], currentVersion, (Memory.ofFiles nameless).fileSystem, ⟨100, 100⟩⟩ .silent []
        "/x".toList).Visits d →
      (OrderedMap.ofList (nameless ++ [("/x".toList, [])])).get? (Path.join d []) =
        (OrderedMap.ofList nameless).get? (Path.join d [])) ∧
      (resolve ⟨[], currentVersion, (Memory.ofFiles nameless).fileSystem, ⟨100, 100⟩⟩ .silent []
        "/x".toList).result.map OrderedMap.entries = .ok [] ∧
      (resolve ⟨[], currentVersion,
        (Memory.ofFiles (nameless ++ [("/x".toList, [])])).fileSystem, ⟨100, 100⟩⟩ .silent []
          "/x".toList).result.map OrderedMap.entries = .ok [("k".toList, "v".toList)] := by
  refine ⟨?_, by decide +kernel, by decide +kernel⟩
  intro d hv
  have he : (resolve ⟨[], currentVersion, (Memory.ofFiles nameless).fileSystem, ⟨100, 100⟩⟩
      .silent [] "/x".toList).events =
        [.file "/x".toList, .directory "/".toList, .finished "/x".toList] := by decide +kernel
  rw [Watched.Visits, he] at hv
  have hd : d = "/".toList := by simpa using hv
  subst hd
  decide

end Cascade
end EditorConfig
