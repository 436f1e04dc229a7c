import Mathlib.Data.List.Basic

/-!
# Directories and files

A tree of directories and files with the calls `mkdir`, `creat`, `write` and `unlink`. A path is
the list of names from the root, and a path as a program gives it is a list of components, which
`Tree.walk` follows. The calls fail for no other reason than what stands in the tree and names that
are too long: the process has all permissions, and the file system has room.
-/

namespace FileSystem

variable {ν β : Type}

/-- A component of a path: `.`, `..` or a name. -/
inductive Component (ν : Type) where
  | self
  | parent
  | name (x : ν)
  deriving DecidableEq

/-- Where a component leads from a directory. The root is its own parent. -/
def Component.go (p : List ν) : Component ν → List ν
  | self => p
  | parent => p.dropLast
  | name x => p ++ [x]

/-- Whether a component can be looked up, where `fits` says which names are not too long. -/
def Component.fits (fits : ν → Bool) : Component ν → Bool
  | self | parent => true
  | name x => fits x

/-- Where the components lead from a directory, whatever stands there. -/
def follow (p : List ν) (cs : List (Component ν)) : List ν :=
  cs.foldl Component.go p

/-- What stands at a path. -/
inductive Node (β : Type) where
  | directory
  | file (contents : List β)

/-- The errors `ENOENT`, `EEXIST`, `ENOTDIR`, `EISDIR` and `ENAMETOOLONG`. -/
inductive Errno where
  | noEntry
  | exist
  | notDirectory
  | isDirectory
  | nameTooLong
  deriving DecidableEq, Repr

/-- What stands at each path. The root is a directory, and so is whatever contains something. -/
structure Tree (ν β : Type) where
  node : List ν → Option (Node β)
  root : node [] = some .directory
  parent : ∀ p x, node (p ++ [x]) ≠ none → node p = some .directory

namespace Tree

/-- Whether a directory stands at a path. -/
def isDirectory (t : Tree ν β) (p : List ν) : Bool :=
  match t.node p with
  | some .directory => true
  | _ => false

variable {t t' : Tree ν β} {p q : List ν}

theorem isDirectory_iff :
  t.isDirectory p = true ↔ t.node p = some .directory
  := by
  rw [isDirectory]
  split
  · simp_all
  · simp_all

theorem ne_nil_of_node (h : t.node p ≠ some .directory) :
  p ≠ []
  := by
  rintro rfl
  exact h t.root

/-- What a file holds. -/
def contents (t : Tree ν β) (p : List ν) : Option (List β) :=
  match t.node p with
  | some (.file contents) => some contents
  | _ => none

theorem not_directory_of_contents {c : List β} (h : t.contents p = some c) :
  t.node p = some (.file c)
  := by
  rw [contents] at h
  split at h
  · cases h
    assumption
  · cases h

/-- A file stands inside a directory. -/
theorem parent_of_contents {c : List β} (h : t.contents p = some c) :
  t.node p.dropLast = some .directory
  := by
  have hnode := not_directory_of_contents h
  have hne : p ≠ [] := ne_nil_of_node (t := t) (by simp [hnode])
  apply t.parent p.dropLast (p.getLast hne)
  rw [List.dropLast_concat_getLast hne, hnode]
  simp

theorem contents_iff {c : List β} :
  t.contents p = some c ↔ t.node p = some (.file c)
  := by
  constructor
  · exact not_directory_of_contents
  · intro h
    rw [contents, h]

/-! ### Following the components of a path -/

variable {fits : ν → Bool} {cs : List (Component ν)}

/-- The path that the components lead to from `p`: whatever is left by a component must be a
directory, and no name may be too long. -/
def walk (t : Tree ν β) (fits : ν → Bool) (p : List ν) :
    List (Component ν) → Except Errno (List ν)
  | [] => .ok p
  | c :: cs =>
    if t.isDirectory p then
      if c.fits fits then t.walk fits (c.go p) cs else .error .nameTooLong
    else .error (if (t.node p).isSome then .notDirectory else .noEntry)

/-- Whatever is left by a component is a directory and no name is too long exactly when the walk
arrives, and then it arrives where the components lead. -/
theorem walk_spec (t : Tree ν β) (fits : ν → Bool) (p : List ν) (cs : List (Component ν)) :
  ((∀ k < cs.length, t.node (follow p (cs.take k)) = some .directory) ∧
      (∀ c ∈ cs, c.fits fits = true) ∧ t.walk fits p cs = .ok (follow p cs)) ∨
    (((∃ k < cs.length, t.node (follow p (cs.take k)) ≠ some .directory) ∨
      ∃ c ∈ cs, c.fits fits ≠ true) ∧ ∃ e, t.walk fits p cs = .error e)
  := by
  induction cs generalizing p with
  | nil =>
      left
      refine ⟨?_, ?_, rfl⟩
      · intro k hk
        cases hk
      · intro c hc
        cases hc
  | cons c cs ih =>
      by_cases hdirectory : t.isDirectory p = true
      · by_cases hfits : c.fits fits = true
        · rw [walk, if_pos hdirectory, if_pos hfits]
          rcases ih (c.go p) with ⟨hall, hnames, hwalk⟩ | ⟨hor, hwalk⟩
          · left
            refine ⟨?_, List.forall_mem_cons.mpr ⟨hfits, hnames⟩, hwalk⟩
            intro k hk
            cases k with
            | zero => exact isDirectory_iff.mp hdirectory
            | succ k => exact hall k (Nat.lt_of_succ_lt_succ hk)
          · right
            refine ⟨?_, hwalk⟩
            rcases hor with ⟨k, hk, hne⟩ | ⟨c', hc', hlong⟩
            · left
              exact ⟨k + 1, Nat.succ_lt_succ hk, hne⟩
            · right
              exact ⟨c', List.mem_cons_of_mem c hc', hlong⟩
        · right
          rw [walk, if_pos hdirectory, if_neg hfits]
          exact ⟨Or.inr ⟨c, List.mem_cons_self .., hfits⟩, _, rfl⟩
      · right
        rw [walk, if_neg hdirectory]
        exact ⟨Or.inl ⟨0, Nat.succ_pos _, mt isDirectory_iff.mpr hdirectory⟩, _, rfl⟩

/-- Where a walk arrives. -/
theorem walk_ok (h : t.walk fits p cs = .ok q) :
  q = follow p cs
  := by
  rcases walk_spec t fits p cs with ⟨-, -, hwalk⟩ | ⟨-, e, hwalk⟩
  · rw [hwalk] at h
    exact (Except.ok.inj h).symm
  · rw [hwalk] at h
    cases h

/-! ### More directories -/

/-- The second tree is the first one with new directories, each where one of the paths leads. -/
def Extends (paths : List (List ν)) (t t' : Tree ν β) : Prop :=
  ∀ q, t'.node q = t.node q ∨ (t.node q = none ∧ t'.node q = some .directory ∧ q ∈ paths)

theorem Extends.refl (t : Tree ν β) :
  Extends [] t t
  := fun _ => Or.inl rfl

theorem Extends.trans {paths paths' : List (List ν)} {t'' : Tree ν β} (h : Extends paths t t')
    (h' : Extends paths' t' t'') :
  Extends (paths ++ paths') t t''
  := by
  intro q
  rcases h q with heq | ⟨hnone, hdirectory, hmem⟩
  · rcases h' q with heq' | ⟨hnone', hdirectory', hmem'⟩
    · exact Or.inl (heq'.trans heq)
    · right
      exact ⟨heq ▸ hnone', hdirectory', List.mem_append_right _ hmem'⟩
  · right
    refine ⟨hnone, ?_, List.mem_append_left _ hmem⟩
    rcases h' q with heq' | ⟨hnone', -, -⟩
    · exact heq'.trans hdirectory
    · rw [hdirectory] at hnone'
      cases hnone'

/-! ### The calls -/

variable [DecidableEq ν]

/-- The tree with something else, or nothing, at a path inside a directory. What replaces a
directory is a directory. -/
def put (t : Tree ν β) (p : List ν) (n : Option (Node β)) (hne : p ≠ [])
    (hparent : t.node p.dropLast = some .directory)
    (hleaf : t.node p = some .directory → n = some .directory) : Tree ν β where
  node q := if q = p then n else t.node q
  root := by
    rw [if_neg (Ne.symm hne)]
    exact t.root
  parent q x hq := by
    split at hq
    · rename_i heq
      subst heq
      rw [List.dropLast_concat] at hparent
      rw [if_neg (by simp), hparent]
    · have hdirectory := t.parent q x hq
      split
      · rename_i heq
        subst heq
        exact hleaf hdirectory
      · exact hdirectory


/-- Why nothing can be put at a path that is not inside a directory. -/
def fault (t : Tree ν β) (p : List ν) : Errno :=
  if (t.node p.dropLast).isSome then .notDirectory else .noEntry

/-- `mkdir`. -/
def mkdir (t : Tree ν β) (p : List ν) : Except Errno (Tree ν β) :=
  if hnone : t.node p = none then
    if hparent : t.isDirectory p.dropLast = true then
      .ok (t.put p (some .directory) (ne_nil_of_node (t := t) (by simp [hnone]))
        (isDirectory_iff.mp hparent) fun _ => rfl)
    else .error (t.fault p)
  else .error .exist

/-- `creat`, which opens a file for writing: an empty file stands at the path. -/
def creat (t : Tree ν β) (p : List ν) : Except Errno (Tree ν β) :=
  if hleaf : t.isDirectory p = true then .error .isDirectory
  else if hparent : t.isDirectory p.dropLast = true then
    .ok (t.put p (some (.file [])) (ne_nil_of_node (mt isDirectory_iff.mpr hleaf))
      (isDirectory_iff.mp hparent) fun h => absurd (isDirectory_iff.mpr h) hleaf)
  else .error (t.fault p)

/-- The file at a path, if there is one, replaced by a file or by nothing. -/
def replace (t : Tree ν β) (p : List ν) (f : List β → Option (List β)) : Tree ν β :=
  match h : t.contents p with
  | none => t
  | some c =>
    t.put p ((f c).map .file) (ne_nil_of_node (t := t) (by simp [not_directory_of_contents h]))
      (parent_of_contents h) (by simp [not_directory_of_contents h])

/-- `write` to the end of an open file. -/
def append (t : Tree ν β) (p : List ν) (data : List β) : Tree ν β :=
  t.replace p fun c => some (c ++ data)

/-- `unlink`. -/
def unlink (t : Tree ν β) (p : List ν) : Except Errno (Tree ν β) :=
  if (t.contents p).isSome then .ok (t.replace p fun _ => none)
  else .error (if t.isDirectory p then .isDirectory else t.fault p)

/-! ### What the calls do -/

theorem put_node {n : Option (Node β)} {hne : p ≠ []}
    {hparent : t.node p.dropLast = some .directory}
    {hleaf : t.node p = some .directory → n = some .directory} :
  (t.put p n hne hparent hleaf).node q = if q = p then n else t.node q
  := rfl

/-- A new directory stands where nothing has stood. -/
theorem mkdir_spec :
  (t.node p = none ∧ t.node p.dropLast = some .directory ∧
      ∃ t', t.mkdir p = .ok t' ∧ ∀ q, t'.node q = if q = p then some .directory else t.node q) ∨
    (t.node p ≠ none ∧ t.mkdir p = .error .exist) ∨
    (t.node p = none ∧ t.node p.dropLast ≠ some .directory ∧ t.mkdir p = .error (t.fault p))
  := by
  by_cases hnone : t.node p = none
  · by_cases hparent : t.isDirectory p.dropLast = true
    · left
      refine ⟨hnone, isDirectory_iff.mp hparent, ?_⟩
      rw [mkdir, dif_pos hnone, dif_pos hparent]
      exact ⟨_, rfl, fun q => put_node⟩
    · right
      right
      refine ⟨hnone, mt isDirectory_iff.mpr hparent, ?_⟩
      rw [mkdir, dif_pos hnone, dif_neg hparent]
  · right
    left
    exact ⟨hnone, dif_neg hnone⟩

/-- An empty file stands where no directory has stood. -/
theorem creat_spec :
  (t.node p ≠ some .directory ∧ t.node p.dropLast = some .directory ∧
      ∃ t', t.creat p = .ok t' ∧ ∀ q, t'.node q = if q = p then some (.file []) else t.node q) ∨
    ((t.node p = some .directory ∨ t.node p.dropLast ≠ some .directory) ∧
      ∃ e, t.creat p = .error e)
  := by
  by_cases hleaf : t.isDirectory p = true
  · right
    exact ⟨Or.inl (isDirectory_iff.mp hleaf), _, dif_pos hleaf⟩
  · by_cases hparent : t.isDirectory p.dropLast = true
    · left
      refine ⟨mt isDirectory_iff.mpr hleaf, isDirectory_iff.mp hparent, ?_⟩
      rw [creat, dif_neg hleaf, dif_pos hparent]
      exact ⟨_, rfl, fun q => put_node⟩
    · right
      refine ⟨Or.inr (mt isDirectory_iff.mpr hparent), t.fault p, ?_⟩
      rw [creat, dif_neg hleaf, dif_neg hparent]

theorem replace_node_of_file {f : List β → Option (List β)} {c : List β}
    (h : t.node p = some (.file c)) :
  (t.replace p f).node q = if q = p then (f c).map .file else t.node q
  := by
  have hcontents := contents_iff.mpr h
  rw [replace]
  split
  · rename_i hnone
    rw [hnone] at hcontents
    cases hcontents
  · rename_i c' hsome
    rw [hsome] at hcontents
    cases hcontents
    exact put_node

theorem append_node {data c : List β} (h : t.node p = some (.file c)) :
  (t.append p data).node q = if q = p then some (.file (c ++ data)) else t.node q
  := replace_node_of_file h

/-- A file that is there is removed. -/
theorem unlink_file {c : List β} (h : t.node p = some (.file c)) :
  ∃ t', t.unlink p = .ok t' ∧ ∀ q, t'.node q = if q = p then none else t.node q
  := by
  refine ⟨_, if_pos (by rw [contents_iff.mpr h]; rfl), ?_⟩
  intro q
  exact replace_node_of_file h

/-- A call of `mkdir` that fails only with `EEXIST`. -/
def ensure (t : Tree ν β) (p : List ν) : Except Errno (Tree ν β) :=
  match t.mkdir p with
  | .error .exist => .ok t
  | result => result

theorem ensure_spec :
  (∃ t', t.ensure p = .ok t' ∧ Extends [p] t t' ∧ t'.node p ≠ none) ∨
    (t.node p = none ∧ t.node p.dropLast ≠ some .directory ∧ ∃ e, t.ensure p = .error e)
  := by
  rcases t.mkdir_spec (p := p) with ⟨hnone, -, t', hmkdir, hnode⟩ | ⟨hsome, hmkdir⟩ |
    ⟨hnone, hparent, hmkdir⟩
  · left
    refine ⟨t', by rw [ensure, hmkdir], ?_, by rw [hnode, if_pos rfl]; simp⟩
    intro q
    rw [hnode]
    by_cases hq : q = p
    · right
      subst hq
      exact ⟨hnone, if_pos rfl, List.mem_singleton_self _⟩
    · left
      exact if_neg hq
  · left
    exact ⟨t, by rw [ensure, hmkdir], fun q => Or.inl rfl, hsome⟩
  · right
    refine ⟨hnone, hparent, t.fault p, ?_⟩
    rw [ensure, hmkdir, fault]
    split
    · rename_i heq
      split at heq
      · cases heq
      · cases heq
    · rfl

/-! ### Changes of one file -/

/-- Where no file stands nothing is replaced. -/
theorem replace_of_no_file {f : List β → Option (List β)} (h : ∀ c, t.node p ≠ some (.file c)) :
  t.replace p f = t
  := by
  rw [replace]
  split
  · rfl
  · rename_i c hsome
    exact absurd (contents_iff.mp hsome) (h c)

/-- Directories stay, and outside `p` nothing else changes but for new directories. -/
structure ChangesAt (p : List ν) (t t' : Tree ν β) : Prop where
  directories : ∀ q, t.node q = some .directory → t'.node q = some .directory
  others : ∀ q ≠ p, t'.node q = t.node q ∨ t.node q = none ∧ t'.node q = some .directory

omit [DecidableEq ν] in
theorem ChangesAt.refl (p : List ν) (t : Tree ν β) :
  ChangesAt p t t
  := ⟨fun _ h => h, fun _ _ => Or.inl rfl⟩

omit [DecidableEq ν] in
/-- New directories leave everything as it is. -/
theorem ChangesAt.of_extends {paths : List (List ν)} (h : Extends paths t t') (p : List ν) :
  ChangesAt p t t'
  := by
  constructor
  · intro q hdirectory
    rcases h q with heq | ⟨-, hnew, -⟩
    · exact heq.trans hdirectory
    · exact hnew
  · intro q _
    rcases h q with heq | ⟨hnone, hnew, -⟩
    · exact Or.inl heq
    · exact Or.inr ⟨hnone, hnew⟩

/-- Something else than a directory is replaced. -/
theorem ChangesAt.of_node {n : Option (Node β)} (hleaf : t.node p ≠ some .directory)
    (h : ∀ q, t'.node q = if q = p then n else t.node q) :
  ChangesAt p t t'
  := by
  constructor
  · intro q hdirectory
    rw [h, if_neg]
    · exact hdirectory
    · rintro rfl
      exact hleaf hdirectory
  · intro q hq
    left
    rw [h, if_neg hq]

/-- A file is replaced. -/
theorem ChangesAt.replace (t : Tree ν β) (p : List ν) (f : List β → Option (List β)) :
  ChangesAt p t (t.replace p f)
  := by
  by_cases hfile : ∃ c, t.node p = some (.file c)
  · obtain ⟨c, hc⟩ := hfile
    apply ChangesAt.of_node (by simp [hc])
    exact fun q => replace_node_of_file hc
  · rw [replace_of_no_file fun c hc => hfile ⟨c, hc⟩]
    exact ChangesAt.refl p t

end Tree

end FileSystem
