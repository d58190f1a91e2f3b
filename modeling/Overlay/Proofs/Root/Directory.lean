import Overlay.Proofs.Disk.Normal
import Overlay.Root.Directory

/-!
# Keys stay inside a directory

A root that is a directory looks for a key behind its own path, under the names of the key without
the `..`. None of these names can act as an absolute path or lead back, so the path that is opened
lies in the directory wherever it is cut off. For a key in normal form the path that resolving gives
renders as the key, so that reading it opens what resolving looked at: `hostPath_contained`. Paths
are without prefixes here, as everywhere in `DiskPath`.
-/

namespace Overlay

open DiskPath

namespace DiskPath

def Within (path dir : DiskPath) : Prop :=
  path.isAbsolute = dir.isAbsolute ∧ dir.names <+: path.names

theorem foldl_push (names : List String) (path : DiskPath) :
    names.foldl push path = ⟨path.isAbsolute, path.names ++ names⟩ := by
  induction names generalizing path with
  | nil => rw [List.foldl_nil, List.append_nil]
  | cons name rest ih => rw [List.foldl_cons, ih, push, List.append_assoc, List.singleton_append]

theorem foldl_step_name (names : List String) (path : DiskPath) :
    (names.map Component.name).foldl step path = names.foldl push path := List.foldl_map

theorem Proper.foldl_push {names : List String} {path : DiskPath} (h : path.Proper)
    (hnames : ∀ s ∈ names, DiskName s) : (names.foldl DiskPath.push path).Proper := by
  rw [DiskPath.foldl_push]
  exact List.forall_mem_append.2 ⟨h, hnames⟩

theorem foldl_join_text {names : List String} {path : DiskPath} (h : path.Proper)
    (hnames : ∀ s ∈ names, DiskName s) :
    names.foldl join path.text = (names.foldl push path).text := by
  induction names generalizing path with
  | nil => rfl
  | cons name rest ih =>
    obtain ⟨hname, hrest⟩ := List.forall_mem_cons.1 hnames
    rw [List.foldl_cons, List.foldl_cons, join_text h hname.no_slash, ih (h.push hname) hrest]

theorem components_foldl_join {names : List String} (hnames : ∀ s ∈ names, DiskName s)
    (base : String) :
    components (names.foldl join base) = components base ++ names.map .name := by
  induction names generalizing base with
  | nil => exact (List.append_nil _).symm
  | cons name rest ih =>
    obtain ⟨hname, hrest⟩ := List.forall_mem_cons.1 hnames
    rw [List.foldl_cons, ih hrest, components_join base hname, List.append_assoc,
      List.singleton_append, List.map_cons]

/-- Components behind those of a directory that are names lead to a place in it. -/
theorem within_of_prefix {dir : String} {names : List String} {way : List Component}
    (hdir : components dir <+: way) (hway : way <+: components dir ++ names.map .name) :
    (way.foldl step {}).Within (ofText dir) := by
  obtain ⟨further, rfl⟩ := hdir
  have hfurther : further <+: names.map Component.name := (List.prefix_append_right_inj _).1 hway
  obtain ⟨taken, -, rfl⟩ := List.prefix_map_iff.1 hfurther
  rw [List.foldl_append, foldl_step_name, foldl_push]
  exact ⟨rfl, List.prefix_append _ taken⟩

end DiskPath

namespace DirectoryRoot

variable {disk : Disk} {path : String} {root : DirectoryRoot}

/-- A root is made of the place that the normal form of its path leads to. -/
theorem new_eq_ok_iff : DirectoryRoot.new disk path = .ok root ↔
    ∃ names, disk.locate (normalizeDiskPath path) = .ok names ∧
      disk.isDirectory (text ⟨true, names⟩) = true ∧ root = ⟨.ofText (text ⟨true, names⟩)⟩ := by
  rw [DirectoryRoot.new, Disk.canonicalize]
  cases disk.locate (normalizeDiskPath path) with
  | error kind =>
    refine iff_of_false (fun h => ?_) fun ⟨names, h, _⟩ => ?_
    · cases h
    · cases h
  | ok names =>
    have hroot : ∀ e : IoError, (if disk.isDirectory (text ⟨true, names⟩) then
        .ok ⟨.ofText (text ⟨true, names⟩)⟩ else .error e) = Except.ok root ↔
        disk.isDirectory (text ⟨true, names⟩) = true ∧
          root = ⟨.ofText (text ⟨true, names⟩)⟩ := fun e => by
      split
      next hdir => simp [hdir, eq_comm]
      next hdir => simp [hdir]
    refine (hroot _).trans ⟨fun h => ⟨names, rfl, h⟩, ?_⟩
    rintro ⟨_, hnames, h⟩
    obtain rfl := Except.ok.inj hnames
    exact h

theorem diskName_of_mem_downward {key s : String} (h : s ∈ downward key) : DiskName s := by
  rw [downward, List.mem_filter, bne_iff_ne] at h
  obtain ⟨hempty, hdot, hslash⟩ := mem_segments h.1
  exact ⟨hempty, hdot, h.2, hslash⟩

theorem hostPath_eq (root : DirectoryRoot) (key : String) :
    root.hostPath key = ⟨root.path.isAbsolute, root.path.names ++ downward key⟩ :=
  foldl_push (downward key) root.path

theorem render_parse_of_isNormal {key : String} (h : isNormal key = true) :
    (EntryPath.parse key).render = key := by
  rw [EntryPath.render_parse, normalize_of_isNormal h]

/-- Whatever the key, the path that is opened has the components of the directory and behind them
the names of the key without the `..`, each of which can stand in a directory; so wherever it is cut
off behind the directory, it leads to a place in it. What resolving a key in normal form gives
renders as the key, and reading it opens the path whose existence was asked for. -/
theorem hostPath_contained (h : DirectoryRoot.new disk path = .ok root) (key : String) :
    isRooted (root.hostPath key).text = true ∧
      (root.hostPath key).text = (downward key).foldl join root.name ∧
      components (root.hostPath key).text = components root.name ++ (downward key).map .name ∧
      (∀ s ∈ downward key, DiskName s) ∧
      (∀ way, components root.name <+: way → way <+: components (root.hostPath key).text →
        (way.foldl step {}).Within root.path) ∧
      (isNormal key = true → ∀ now : Disk,
        (root.resolve now key).isSome = now.exists? (root.hostPath key).text ∧
          ∀ found, root.resolve now key = some found → found.render = key ∧
            ∀ later : Disk, root.read later found =
              (later.readFile (root.hostPath key).text).mapError .system) := by
  obtain ⟨places, -, -, rfl⟩ := new_eq_ok_iff.1 h
  generalize hcanonical : text ⟨true, places⟩ = canonical at *
  have hrooted : isRooted canonical = true := by
    rw [← hcanonical, text, if_pos rfl, isRooted_append (by decide)]
    rfl
  have hproper : (ofText canonical).Proper := proper_ofText canonical
  have hnames : ∀ s ∈ downward key, DiskName s := fun _ => diskName_of_mem_downward
  have htext : (hostPath ⟨.ofText canonical⟩ key).text =
      (downward key).foldl join (ofText canonical).text := (foldl_join_text hproper hnames).symm
  have hcomponents : components (hostPath ⟨.ofText canonical⟩ key).text =
      components (ofText canonical).text ++ (downward key).map .name := by
    rw [htext, components_foldl_join hnames]
  have hagain : ofText (name ⟨.ofText canonical⟩) = ofText canonical := ofText_text hproper
  refine ⟨?_, htext, hcomponents, hnames, fun way hdir hway => ?_, fun hkey now => ?_⟩
  · have hhost : (hostPath ⟨.ofText canonical⟩ key).Proper := hproper.foldl_push hnames
    rw [isRooted_text hhost, hostPath_eq, ofText_eq]
    exact hrooted
  · rw [hcomponents] at hway
    have hwithin := within_of_prefix hdir hway
    rwa [hagain] at hwithin
  · rw [resolve]
    split
    next hthere =>
      refine ⟨hthere.symm, fun found hfound => ?_⟩
      obtain rfl := Option.some.inj hfound
      have hrender : (EntryPath.parse key).render = key := render_parse_of_isNormal hkey
      refine ⟨hrender, fun later => ?_⟩
      rw [read, hrender]
    next hnone =>
      refine ⟨(Bool.eq_false_iff.2 hnone).symm, fun found hfound => ?_⟩
      cases hfound

theorem hostPath_contained_beside :
    let disk : Disk := ⟨.directory [("d", .directory [("x", .file 0)]), ("x", .file 1)],
      #[ByteArray.mk #[1], ByteArray.mk #[2]], []⟩
    let root : DirectoryRoot := ⟨⟨true, ["d"]⟩⟩
    DirectoryRoot.new disk "/./d" = .ok root ∧ isNormal "/x" = true ∧
      components (root.hostPath "/../x").text = [.root, .name "d", .name "x"] ∧
      ∃ found, root.resolve disk "/x" = some found ∧ found.render = "/x" ∧
        root.read disk found = .ok (ByteArray.mk #[1]) := by
  intro disk root
  have hsteps : normalizeDiskPath "/./d" = "/d" ∧ Disk.steps "/d" = ["d"] ∧
      Disk.steps "/d/x" = ["d", "x"] := by decide
  have hplaces : disk.locate "/d" = .ok ["d"] ∧ disk.locate "/d/x" = .ok ["d", "x"] := by
    simp [disk, Disk.locate, hsteps, Disk.follow, DiskNode.get?, Disk.maxName, Disk.maxPath,
      isRooted]
    exact ⟨rfl, rfl⟩
  have hnew : DirectoryRoot.new disk "/./d" = .ok root := by
    rw [new_eq_ok_iff, hsteps.1]
    refine ⟨["d"], hplaces.1, ?_, by decide⟩
    rw [show text ⟨true, ["d"]⟩ = "/d" by decide, Disk.isDirectory, Disk.node?, hplaces.1]
    rfl
  have hkey : isNormal "/x" = true := by decide
  have hpath : (root.hostPath "/x").text = "/d/x" := by decide
  have hcomponents := (hostPath_contained hnew "/../x").2.2.1
  obtain ⟨hthere, hfound⟩ := (hostPath_contained hnew "/x").2.2.2.2.2 hkey disk
  rw [hpath] at hthere hfound
  have hexists : disk.exists? "/d/x" = true := by
    rw [Disk.exists?, Disk.node?, hplaces.2]
    rfl
  obtain ⟨found, hsome⟩ := Option.isSome_iff_exists.1 (hthere.trans hexists)
  obtain ⟨hrender, hread⟩ := hfound found hsome
  refine ⟨hnew, hkey, hcomponents.trans (by decide), found, hsome, hrender, ?_⟩
  rw [hread, Disk.readFile, Disk.openFile, hplaces.2]
  rfl

end DirectoryRoot

end Overlay
