import Clausal.FileSystem
import Clausal.Proofs.Progress
import Mathlib.Data.Finset.Card

/-!
# The expansion of a program

What a program made of files stands for, said without a session: its files laid out one inside the
other, depth first.

* `FileSystem.Finite`: only so many files can be read, under whatever paths. It holds of every file
  system of given files (`FileSystem.finite_ofFiles`).
* `Script`: the statements of a text up to its end or its first fault. Since parsing a statement
  passes over a token, this needs no bound.
* `Expands`: a file stands for what is in its text where it is met first, and for nothing where it
  is met again, in whatever spelling. There is one expansion at most (`Expands.unique`), and it
  reads no file twice (`Expands.once`).
* `ExpandsAll`: the same for several calls that load files and texts.
-/

namespace Clausal

/-! ## File systems with finitely many files -/

theorem Found.node_of_text {found : Found} {text : String} (h : found.text = .ok text) :
    found.node = .file (.ok text) := by
  unfold Found.text at h
  split at h
  · cases h
  · next content hcontent => rw [hcontent, h]

namespace FileSystem

/-- Whatever can be read, under whatever path, is one of these files by its canonical path. -/
def Within (fs : FileSystem) (files : Finset String) : Prop :=
  ∀ path found text, fs.lookup path = .ok found → found.text = .ok text → found.path ∈ files

/-- The bound for the number of files is one: no more files than that can be read. -/
def Finite (fs : FileSystem) : Prop :=
  ∃ files : Finset String, files.card ≤ fs.fileCount ∧ fs.Within files

variable {files : Files}

theorem lookup_of_nodeAt {steps : List String} {text : Except FileError String}
    (h : nodeAt files steps = some (.file text)) : files.lookup steps = some text := by
  unfold nodeAt at h
  split at h
  · next found hfound =>
    cases h
    exact hfound
  · split at h <;> cases h

/-- A walk from a directory that ends at a file ends at one of the given files. -/
theorem lookup_of_walk {here there steps : List String} {node : Node}
    {text : Except FileError String} (hnode : ∀ t, node = .file t → files.lookup here = some t)
    (h : walk files here node steps = .ok (there, .file text)) :
    files.lookup there = some text := by
  induction steps generalizing here node with
  | nil =>
    cases h
    exact hnode text rfl
  | cons step rest ih =>
    cases node with
    | file t =>
      rw [walk] at h
      cases h
    | directory =>
      rw [walk] at h
      split at h
      · exact ih (by rintro t ⟨⟩) h
      · split at h
        · exact ih (by rintro t ⟨⟩) h
        · split at h
          · cases h
          · split at h
            · next next hnext =>
              exact ih (fun t ht => lookup_of_nodeAt (hnext.trans (congrArg some ht))) h
            · cases h

theorem find_of_lookup {fs : FileSystem} {path : String} {found : Found}
    (h : fs.lookup path = .ok found) : fs.find (Path.join fs.directory path) = .ok found := by
  unfold lookup at h
  split at h
  · cases h
  · split at h
    · cases h
    · exact h

/-- A file system of given files has no others, and never more paths to them than files. -/
theorem finite_ofFiles (directory : String) (files : List (String × Except FileError String)) :
    (ofFiles directory files).Finite := by
  let root := (Path.steps directory).filter (!·.isEmpty)
  let placed : Files := files.map fun file =>
    (root ++ (Path.steps file.1).filter (fun step => !step.isEmpty && step != "."), file.2)
  refine ⟨(placed.map fun file => Path.ofSteps file.1).toFinset, ?_, ?_⟩
  · refine (List.toFinset_card_le _).trans_eq ?_
    simp [placed, ofFiles]
  intro path found text hfound htext
  have hfind := find_of_lookup hfound
  simp only [ofFiles, Bind.bind, Except.bind] at hfind
  split at hfind
  · cases hfind
  · next ended hwalk =>
    obtain ⟨there, node⟩ := ended
    cases hfind
    obtain rfl : node = .file (.ok text) := Found.node_of_text htext
    have hmem := lookup_of_walk (by rintro t ⟨⟩) hwalk
    rw [List.lookup_cons] at hmem
    split at hmem
    -- the file that keeps the directory there has no text
    · cases hmem
    · obtain ⟨before, after, heq, -⟩ := List.lookup_eq_some_iff.mp hmem
      refine List.mem_toFinset.mpr (List.mem_map.mpr ⟨(there, .ok text), ?_, rfl⟩)
      have hplaced : placed = before ++ (there, .ok text) :: after := heq
      rw [hplaced]
      exact List.mem_append_right before List.mem_cons_self

end FileSystem

/-! ## Scripts -/

/-- What stands in a text: its statements up to the end or to the first fault, and whether that is
the end. -/
structure Script where
  statements : List Statement
  complete : Bool

namespace Script

/-- The statements from the lexer on. -/
def ofLexer (isNative : String → Bool) (lexer : Lexer) : Script :=
  match h : Parse.statement isNative lexer with
  | .ok (some first) stop =>
    have : stop.left < lexer.left := Parse.statement_less h
    let rest := ofLexer isNative stop
    ⟨first :: rest.statements, rest.complete⟩
  | .ok none _ => ⟨[], true⟩
  | .fail _ _ | .exhausted => ⟨[], false⟩
termination_by lexer.left

/-- The statements of a text. -/
def ofSource (isNative : String → Bool) (source : String) (file : Option String) : Script :=
  match Lexer.ofSource source file with
  | .ok lexer => ofLexer isNative lexer
  | .error _ => ⟨[], false⟩

variable {isNative : String → Bool} {lexer stop : Lexer}

theorem ofLexer_cons {first : Statement}
    (h : Parse.statement isNative lexer = .ok (some first) stop) :
    ofLexer isNative lexer =
      ⟨first :: (ofLexer isNative stop).statements, (ofLexer isNative stop).complete⟩ := by
  rw [ofLexer]
  split <;> simp_all

theorem ofLexer_end (h : Parse.statement isNative lexer = .ok none stop) :
    ofLexer isNative lexer = ⟨[], true⟩ := by
  rw [ofLexer]
  split <;> simp_all

theorem ofLexer_fault {e : Error} (h : Parse.statement isNative lexer = .fail e stop) :
    ofLexer isNative lexer = ⟨[], false⟩ := by
  rw [ofLexer]
  split <;> simp_all

end Script

/-! ## Expansions -/

/-- A file whose text is read: the path under which it was found, its canonical path, the text. -/
structure Opened where
  path : String
  canonical : String
  text : String

/-- What loading comes to. -/
structure Expansion where
  /-- The files that are read, in order. -/
  opened : List Opened
  /-- The groups of declarations that take effect, in order. -/
  groups : List (List Declaration)
  /-- The canonical paths that are marked in the end. -/
  seen : List String
  /-- Whether there is no fault. -/
  complete : Bool

/-- One expansion after the other. -/
def Expansion.andThen (x y : Expansion) : Expansion :=
  ⟨x.opened ++ y.opened, x.groups ++ y.groups, y.seen, x.complete && y.complete⟩

/-- What can be expanded. -/
inductive Item where
  /-- What stands under a path. -/
  | file (path : String)
  /-- A text, whose files are found from the directory `base`. -/
  | text (base : String) (script : Script)

/-- The depth-first expansion. A file stands for what is in its text where it is met first, and for
nothing wherever it is met again; the first fault ends it all. -/
inductive Expands (fs : FileSystem) (isNative : String → Bool) :
    Item → List String → Expansion → Prop
  | missing {path seen reason} (hfound : fs.lookup path = .error reason) :
    Expands fs isNative (.file path) seen ⟨[], [], seen, false⟩
  | again {path seen found} (hfound : fs.lookup path = .ok found) (hseen : found.path ∈ seen) :
    Expands fs isNative (.file path) seen ⟨[], [], seen, true⟩
  | unreadable {path seen found reason} (hfound : fs.lookup path = .ok found)
    (hseen : found.path ∉ seen) (htext : found.text = .error reason) :
    Expands fs isNative (.file path) seen ⟨[], [], found.path :: seen, false⟩
  | first {path seen found source x} (hfound : fs.lookup path = .ok found)
    (hseen : found.path ∉ seen) (htext : found.text = .ok source)
    (hx : Expands fs isNative
      (.text (Path.parent found.path) (.ofSource isNative source (some path)))
      (found.path :: seen) x) :
    Expands fs isNative (.file path) seen
      { x with opened := ⟨path, found.path, source⟩ :: x.opened }
  | done {base seen complete} :
    Expands fs isNative (.text base ⟨[], complete⟩) seen ⟨[], [], seen, complete⟩
  | group {base group rest complete seen x}
    (hx : Expands fs isNative (.text base ⟨rest, complete⟩) seen x) :
    Expands fs isNative (.text base ⟨.declarations group :: rest, complete⟩) seen
      { x with groups := group :: x.groups }
  | use {base path position rest complete seen x y}
    (hx : Expands fs isNative (.file (Path.join base path)) seen x) (hcomplete : x.complete = true)
    (hy : Expands fs isNative (.text base ⟨rest, complete⟩) x.seen y) :
    Expands fs isNative (.text base ⟨.use path position :: rest, complete⟩) seen (x.andThen y)
  | fault {base path position rest complete seen x}
    (hx : Expands fs isNative (.file (Path.join base path)) seen x)
    (hcomplete : x.complete = false) :
    Expands fs isNative (.text base ⟨.use path position :: rest, complete⟩) seen x

namespace Expands

variable {fs : FileSystem} {isNative : String → Bool} {item : Item} {seen : List String}
  {x y : Expansion}

/-- There is one expansion at most. -/
theorem unique (hx : Expands fs isNative item seen x) (hy : Expands fs isNative item seen y) :
    x = y := by
  induction hx generalizing y with
  | missing hfound => cases hy <;> simp_all
  | again hfound hseen => cases hy <;> simp_all
  | unreadable hfound hseen htext => cases hy <;> simp_all
  | first hfound hseen htext _ ih =>
    cases hy with
    | missing hfound' => simp_all
    | again hfound' hseen' => simp_all
    | unreadable hfound' hseen' htext' => simp_all
    | first hfound' hseen' htext' hy =>
      rw [hfound] at hfound'
      cases hfound'
      rw [htext] at htext'
      cases htext'
      rw [ih hy]
  | done => cases hy; rfl
  | group _ ih =>
    cases hy with
    | group hy => rw [ih hy]
  | use _ hcomplete _ ihx ihy =>
    cases hy with
    | use hx' _ hy' =>
      cases ihx hx'
      rw [ihy hy']
    | fault hx' hcomplete' =>
      cases ihx hx'
      rw [hcomplete] at hcomplete'
      cases hcomplete'
  | fault _ hcomplete ih =>
    cases hy with
    | use hx' hcomplete' _ =>
      cases ih hx'
      rw [hcomplete] at hcomplete'
      cases hcomplete'
    | fault hx' _ => exact ih hx'

end Expands

/-- No mark is lost. Each file that is read gets a mark that it did not have, so none is read
twice. -/
structure Expansion.Once (fs : FileSystem) (seen : List String) (x : Expansion) : Prop where
  kept : seen ⊆ x.seen
  found : ∀ file ∈ x.opened, fs.lookup file.path = .ok ⟨file.canonical, .file (.ok file.text)⟩
  marked : ∀ file ∈ x.opened, file.canonical ∉ seen ∧ file.canonical ∈ x.seen
  distinct : (x.opened.map (·.canonical)).Nodup

namespace Expansion.Once

variable {fs : FileSystem} {seen : List String} {x y : Expansion}

theorem nothing {seen' : List String} (h : seen ⊆ seen') (complete : Bool) :
    Once fs seen ⟨[], [], seen', complete⟩ :=
  ⟨h, List.forall_mem_nil _, List.forall_mem_nil _, List.nodup_nil⟩

theorem andThen (hx : Once fs seen x) (hy : Once fs x.seen y) : Once fs seen (x.andThen y) where
  kept := List.Subset.trans hx.kept hy.kept
  found file hfile := (List.mem_append.mp hfile).elim (hx.found file) (hy.found file)
  marked file hfile := by
    rcases List.mem_append.mp hfile with hfile | hfile
    · exact ⟨(hx.marked file hfile).1, hy.kept (hx.marked file hfile).2⟩
    · exact ⟨fun hseen => (hy.marked file hfile).1 (hx.kept hseen), (hy.marked file hfile).2⟩
  distinct := by
    rw [Expansion.andThen, List.map_append, List.nodup_append]
    refine ⟨hx.distinct, hy.distinct, ?_⟩
    -- what the first has read is marked when the second begins
    rintro _ ha _ hb rfl
    obtain ⟨file, hfile, hsame⟩ := List.mem_map.mp ha
    obtain ⟨other, hother, rfl⟩ := List.mem_map.mp hb
    exact (hy.marked other hother).1 (hsame ▸ (hx.marked file hfile).2)

theorem first {path source : String} {found : Found} (hfound : fs.lookup path = .ok found)
    (hseen : found.path ∉ seen) (htext : found.text = .ok source)
    (hx : Once fs (found.path :: seen) x) :
    Once fs seen { x with opened := ⟨path, found.path, source⟩ :: x.opened } where
  kept := List.Subset.trans (List.subset_cons_self found.path seen) hx.kept
  found := by
    refine List.forall_mem_cons.mpr ⟨?_, hx.found⟩
    obtain ⟨canonical, node⟩ := found
    obtain rfl : node = .file (.ok source) := Found.node_of_text htext
    exact hfound
  marked := by
    refine List.forall_mem_cons.mpr ⟨⟨hseen, hx.kept List.mem_cons_self⟩, fun file hfile => ?_⟩
    exact ⟨fun h => (hx.marked file hfile).1 (List.mem_cons_of_mem _ h), (hx.marked file hfile).2⟩
  distinct := by
    refine List.nodup_cons.mpr ⟨fun h => ?_, hx.distinct⟩
    obtain ⟨file, hfile, hsame⟩ := List.mem_map.mp h
    exact (hx.marked file hfile).1 (hsame ▸ List.mem_cons_self)

end Expansion.Once

theorem Expands.once {fs : FileSystem} {isNative : String → Bool} {item : Item}
    {seen : List String} {x : Expansion} (h : Expands fs isNative item seen x) :
    x.Once fs seen := by
  induction h with
  | missing | again | done => exact .nothing (List.Subset.refl _) _
  | unreadable => exact .nothing (List.subset_cons_self _ _) _
  | first hfound hseen htext _ ih => exact ih.first hfound hseen htext
  | group _ ih => exact ⟨ih.kept, ih.found, ih.marked, ih.distinct⟩
  | use _ _ _ ihx ihy => exact ihx.andThen ihy
  | fault _ _ ih => exact ih

/-! ## Any number of calls -/

/-- A call that loads a file or a text. -/
inductive Load where
  | file (path : String)
  | text (source : String)

/-- What a call is to load. What a text uses is found from the working directory. -/
def Load.item (isNative : String → Bool) : Load → Item
  | .file path => .file path
  | .text source => .text "." (.ofSource isNative source none)

/-- The depth-first expansion of what several calls load. A fault ends the call it is met in, and
what is marked by then stays marked. -/
inductive ExpandsAll (fs : FileSystem) (isNative : String → Bool) :
    List Load → List String → Expansion → Prop
  | nil {seen} : ExpandsAll fs isNative [] seen ⟨[], [], seen, true⟩
  | cons {load rest seen x y} (hx : Expands fs isNative (load.item isNative) seen x)
    (hy : ExpandsAll fs isNative rest x.seen y) :
    ExpandsAll fs isNative (load :: rest) seen (x.andThen y)

namespace ExpandsAll

variable {fs : FileSystem} {isNative : String → Bool} {loads : List Load} {seen : List String}
  {x y : Expansion}

theorem unique (hx : ExpandsAll fs isNative loads seen x)
    (hy : ExpandsAll fs isNative loads seen y) : x = y := by
  induction hx generalizing y with
  | nil => cases hy; rfl
  | cons hx _ ih =>
    cases hy with
    | cons hx' hy' =>
      cases hx.unique hx'
      rw [ih hy']

theorem once (h : ExpandsAll fs isNative loads seen x) : x.Once fs seen := by
  induction h with
  | nil => exact .nothing (List.Subset.refl _) _
  | cons hx _ ih => exact hx.once.andThen ih

end ExpandsAll

end Clausal
