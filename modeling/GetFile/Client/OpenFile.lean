import GetFile.CString.Decimal
import GetFile.CString.Strsep
import GetFile.FileSystem.Tree

/-!
# Client: the local files

`localPath` of the download client makes the name of the local file out of the path that is asked
for and a counter, and `openFile` makes the directories of this name and opens the file. The name
stands in an array on the stack of `main`, in which `openFile` cuts it off at each slash and then
puts the slash back (`openFile_eq`).
-/

namespace GetFile.Client

open CString FileSystem

/-- The size of the array `local_path` of `main`. -/
def localPathSize : ℕ := 512

/-- What `%06d` prints for a number that is not negative. -/
def percent06d (n : ℕ) : List UInt8 :=
  List.replicate (6 - (decimal n).length) (digitChar 0) ++ decimal n

/-- The text that `sprintf` makes of `"%s-%06d"`. -/
def localName (reqPath : List UInt8) (counter : ℕ) : List UInt8 :=
  reqPath.drop 1 ++ ascii "-" ++ percent06d counter

/-- `localPath`, where earlier names have left the array as it is. There is no result when the name
does not fit. -/
def localPath (reqPath : List UInt8) (counter : ℕ) (b : Buffer localPathSize) :
    Option (Buffer localPathSize) :=
  let name := localName reqPath counter
  if name.length + 1 ≤ localPathSize then some ((b.store 0 name).terminate name.length) else none

/-! ### Paths as strings -/

def slash : UInt8 := 47

/-- What stands between two slashes, where nothing is no component. -/
def component (name : List UInt8) : Option (Component (List UInt8)) :=
  if name = [] then none
  else if name = ascii "." then some .self
  else if name = ascii ".." then some .parent
  else some (.name name)

/-- The components of a path. -/
def components (s : List UInt8) : List (Component (List UInt8)) :=
  (s.splitOn slash).filterMap component

/-- The limit `NAME_MAX` of the length of a name. -/
def nameMax : ℕ := 255

/-- Whether a name can be that of a file or of a directory. -/
def fits (name : List UInt8) : Bool :=
  name.length ≤ nameMax

/-- The names of the files and what they hold. -/
abbrev Files := Tree (List UInt8) UInt8

/-- Where a path starts, for a process with the working directory `cwd`. -/
def base (cwd : List (List UInt8)) (s : List UInt8) : List (List UInt8) :=
  if s.head? = some slash then [] else cwd

/-- Where a path leads. -/
def resolve (cwd : List (List UInt8)) (s : List UInt8) : List (List UInt8) :=
  follow (base cwd s) (components s)

/-- The call `mkdir(s, S_IRWXU)` and the test of `errno` behind it. -/
def makeDirectory (cwd : List (List UInt8)) (t : Files) (s : List UInt8) : Except Errno Files :=
  (t.walk fits (base cwd s) (components s)).bind t.ensure

/-- `fopen(s, "w")`. -/
def fopen (cwd : List (List UInt8)) (t : Files) (s : List UInt8) : Except Errno Files :=
  (t.walk fits (base cwd s) (components s)).bind t.creat

/-- `strchr(&b[i], c)` for a character that is not the terminator, as an index. -/
def strchr {size : ℕ} (b : Buffer size) (i : ℕ) (c : UInt8) : Option ℕ :=
  let j := scan (fun x => x != 0 && x != c) b.byte (size - i) i
  if b.byte j = c then some j else none

/-- The loop of `openFile` behind the index `prev`, for at most the given number of rounds. Each
round goes on behind a slash, so that the size of the array is enough. -/
def makeDirectories (cwd : List (List UInt8)) :
    ℕ → ℕ → Buffer localPathSize → Files → Except Errno (Buffer localPathSize × Files)
  | 0, _, b, t => .ok (b, t)
  | rounds + 1, prev, b, t =>
    match strchr b (prev + 1) slash with
    | none => .ok (b, t)
    | some cur =>
      let b := b.terminate cur
      match makeDirectory cwd t (b.string 0) with
      | .error e => .error e
      | .ok t => makeDirectories cwd rounds cur (b.store cur [slash]) t

/-- `openFile`. The program exits where there is an error. -/
def openFile (cwd : List (List UInt8)) (b : Buffer localPathSize) (t : Files) :
    Except Errno (Buffer localPathSize × Files) :=
  (makeDirectories cwd localPathSize 0 b t).bind fun x =>
    (fopen cwd x.2 (x.1.string 0)).map fun t => (x.1, t)

/-! ### The loop on the name -/

section

variable {size : ℕ} {b : Buffer size} {i : ℕ} {c : UInt8} {s word rest done : List UInt8}

/-- A character that is put back. -/
theorem store_terminate {j : ℕ} (hj : j < size) (hbyte : b.byte j = c) :
  (b.terminate j).store j [c] = b
  := by
  obtain ⟨byte, zero⟩ := b
  rw [Buffer.mk.injEq]
  funext k
  by_cases hk : k = j
  · subst hk
    rw [Buffer.store_byte_of_mem le_rfl (by simp) hj]
    simpa using hbyte.symm
  · rw [Buffer.store_byte_of_not_mem (by rw [List.length_singleton]; omega),
      Buffer.terminate_byte_of_ne _ hk]

end

section

variable {cwd : List (List UInt8)} {b : Buffer localPathSize} {t t' : Files}
  {s done rest pre : List UInt8}

/-- A directory that is made, or is there, stands where its path leads. -/
theorem makeDirectory_extends (h : makeDirectory cwd t s = .ok t') :
  t.Extends [resolve cwd s] t'
  := by
  rw [makeDirectory] at h
  rcases Tree.walk_spec t fits (base cwd s) (components s) with ⟨-, -, hwalk⟩ | ⟨-, e, hwalk⟩
  · rw [hwalk] at h
    rcases t.ensure_spec (p := resolve cwd s) with ⟨t₁, hensure, hextends, -⟩ |
      ⟨-, -, e, hensure⟩
    · obtain rfl := Except.ok.inj (hensure.symm.trans h)
      exact hextends
    · rw [resolve] at hensure
      simp only [Except.bind, hensure] at h
      cases h
  · rw [hwalk] at h
    cases h

/-- `fopen` puts an empty file where its path leads through directories, and it leaves no
directory out. -/
theorem fopen_ok (h : fopen cwd t s = .ok t') :
  (∀ k < (components s).length,
      t.node (follow (base cwd s) ((components s).take k)) = some .directory) ∧
    (∀ c ∈ components s, c.fits fits = true) ∧
    t.node (resolve cwd s) ≠ some .directory ∧
    ∀ q, t'.node q = if q = resolve cwd s then some (.file []) else t.node q
  := by
  rw [fopen] at h
  rcases Tree.walk_spec t fits (base cwd s) (components s) with
    ⟨hall, hnames, hwalk⟩ | ⟨-, e, hwalk⟩
  · rw [hwalk] at h
    rcases t.creat_spec (p := resolve cwd s) with ⟨hleaf, -, t₁, hcreat, hnode⟩ | ⟨-, e, hcreat⟩
    · obtain rfl := Except.ok.inj (hcreat.symm.trans h)
      exact ⟨hall, hnames, hleaf, hnode⟩
    · rw [resolve] at hcreat
      simp only [Except.bind, hcreat] at h
      cases h
  · rw [hwalk] at h
    cases h

end

/-! ### When `openFile` succeeds -/

/-- What stands behind the last slash. -/
def lastName (s : List UInt8) : List UInt8 :=
  (s.splitOn slash).getLast (List.splitOn_ne_nil _ _)

/-- The name of a file, which no directory has. -/
def IsName (name : List UInt8) : Prop :=
  component name = some (.name name)

instance (name : List UInt8) : Decidable (IsName name) :=
  inferInstanceAs (Decidable (_ = _))

section

variable {cwd p₀ : List (List UInt8)} {t t' : Files} {s word rest done pre post : List UInt8}

theorem lastName_append_slash :
  lastName (pre ++ slash :: post) = lastName post
  := by
  simp only [lastName, List.splitOn_append_cons_self]
  rw [List.getLast_append_of_ne_nil]

theorem lastName_of_free (hfree : slash ∉ word) :
  lastName word = word
  := by
  simp only [lastName, List.splitOn_eq_singleton hfree]
  rfl

/-- A path that ends in a name has it as its last component. -/
theorem components_eq (hname : IsName (lastName s)) :
  ∃ cs, components s = cs ++ [.name (lastName s)]
  := by
  refine ⟨(s.splitOn slash).dropLast.filterMap component, ?_⟩
  have hsplit := List.dropLast_concat_getLast (List.splitOn_ne_nil slash s)
  rw [components]
  nth_rewrite 1 [← hsplit]
  rw [List.filterMap_append]
  have hlast : component ((s.splitOn slash).getLast (List.splitOn_ne_nil _ _)) =
      some (.name (lastName s)) := hname
  simp [hlast]

/-- Where a path leads that ends in a name. -/
theorem resolve_eq (cwd : List (List UInt8)) (hname : IsName (lastName s)) :
  ∃ p, resolve cwd s = p ++ [lastName s]
  := by
  obtain ⟨cs, hcs⟩ := components_eq hname
  refine ⟨follow (base cwd s) cs, ?_⟩
  rw [resolve, hcs, follow, List.foldl_append]
  rfl

/-- What is a directory stays one. -/
theorem Extends.directory {paths : List (List (List UInt8))} (h : t.Extends paths t')
    {p : List (List UInt8)} (hp : t.node p = some .directory) :
  t'.node p = some .directory
  := by
  rcases h p with heq | ⟨hnone, -⟩
  · exact heq.trans hp
  · rw [hp] at hnone
    cases hnone

/-- No file is new. -/
theorem Extends.file {paths : List (List (List UInt8))} (h : t.Extends paths t')
    {p : List (List UInt8)} {c : List UInt8} (hp : t.node p ≠ some (.file c)) :
  t'.node p ≠ some (.file c)
  := by
  rcases h p with heq | ⟨-, hdirectory, -⟩
  · rw [heq]
    exact hp
  · rw [hdirectory]
    simp

end

section

variable {cwd : List (List UInt8)} {b : Buffer localPathSize} {t t' : Files} {s : List UInt8}

/-- A tree with nothing but the root. -/
def emptyTree : Files where
  node p := if p = [] then some .directory else none
  root := if_pos rfl
  parent p x h := by simp at h

end

/-! ### The names of the local files -/

section

variable {s w : List UInt8} {n n' : ℕ}

theorem lastName_append (hfree : slash ∉ w) :
  lastName (s ++ w) = lastName s ++ w
  := by
  induction hn : s.length using Nat.strong_induction_on generalizing s with
  | _ m ih =>
      by_cases hmem : slash ∈ s
      · obtain ⟨word, rest, rfl, -⟩ := List.eq_append_cons_of_mem hmem
        rw [List.append_assoc, List.cons_append, lastName_append_slash, lastName_append_slash]
        apply ih rest.length _ rfl
        rw [← hn, List.length_append, List.length_cons]
        omega
      · rw [lastName_of_free hmem, lastName_of_free]
        simp [hmem, hfree]

theorem isDigit_of_mem_percent06d {c : UInt8} (h : c ∈ percent06d n) :
  isDigit c = true
  := by
  rcases List.mem_append.mp h with hzero | hdigit
  · rw [List.eq_of_mem_replicate hzero]
    decide
  · exact isDigit_of_mem_decimal hdigit

/-- The number can be read back. -/
theorem decimalValue_percent06d (n : ℕ) :
  decimalValue (percent06d n) = n
  := by
  have hzeros : ∀ k, (List.replicate k (digitChar 0)).foldl
      (fun n c => 10 * n + (c.toNat - 48)) 0 = 0 := by
    intro k
    induction k with
    | zero => rfl
    | succ k ih =>
        rw [List.replicate_succ, List.foldl_cons]
        exact ih
  rw [percent06d, decimalValue, List.foldl_append, hzeros]
  exact decimalValue_decimal n

theorem length_percent06d (n : ℕ) :
  6 ≤ (percent06d n).length
  := by
  rw [percent06d, List.length_append, List.length_replicate]
  omega

/-- The number behind the last dash is that of the name. -/
theorem eq_of_dash {s s' : List UInt8}
    (h : s ++ (ascii "-" ++ percent06d n) = s' ++ (ascii "-" ++ percent06d n')) :
  n = n'
  := by
  have hread : ∀ (s : List UInt8) (n : ℕ),
      ((s ++ (ascii "-" ++ percent06d n)).reverse.takeWhile isDigit).reverse = percent06d n := by
    intro s n
    have hdash : isDigit 45 = false := by decide
    rw [List.reverse_append, List.reverse_append, List.append_assoc,
      List.takeWhile_append_of_pos (by
        intro c hc
        exact isDigit_of_mem_percent06d (List.mem_reverse.mp hc))]
    have hrest : ((ascii "-").reverse ++ s.reverse).takeWhile isDigit = [] := by
      rw [show (ascii "-").reverse = [45] from rfl, List.singleton_append,
        List.takeWhile_cons_of_neg (by simp [hdash])]
    rw [hrest, List.append_nil, List.reverse_reverse]
  rw [← decimalValue_percent06d n, ← decimalValue_percent06d n', ← hread s n, ← hread s' n', h]

variable {reqPath reqPath' : List UInt8}

/-- The last name of a local file. -/
theorem lastName_localName (reqPath : List UInt8) (n : ℕ) :
  lastName (localName reqPath n) = lastName (reqPath.drop 1) ++ (ascii "-" ++ percent06d n)
  := by
  rw [localName, List.append_assoc]
  apply lastName_append
  intro hmem
  rcases List.mem_append.mp hmem with hdash | hdigit
  · revert hdash
    decide
  · have hdigit' := isDigit_of_mem_percent06d hdigit
    revert hdigit'
    decide

/-- The local file has a name that no directory has. -/
theorem isName_localName (reqPath : List UInt8) (n : ℕ) :
  IsName (lastName (localName reqPath n))
  := by
  have hlength : 6 < (lastName (localName reqPath n)).length := by
    have hsix := length_percent06d n
    have hdash : (ascii "-").length = 1 := rfl
    rw [lastName_localName, List.length_append, List.length_append]
    omega
  have hlong : ∀ name : List UInt8, name.length ≤ 6 → lastName (localName reqPath n) ≠ name := by
    rintro name hname rfl
    omega
  rw [IsName, component, if_neg (hlong _ (by decide)), if_neg (hlong _ (by decide)),
    if_neg (hlong _ (by decide))]

/-- Files with different numbers stand at different places, whatever has been asked for. -/
theorem eq_of_resolve {cwd : List (List UInt8)}
    (h : resolve cwd (localName reqPath n) = resolve cwd (localName reqPath' n')) :
  n = n'
  := by
  obtain ⟨p, hp⟩ := resolve_eq cwd (isName_localName reqPath n)
  obtain ⟨p', hp'⟩ := resolve_eq cwd (isName_localName reqPath' n')
  rw [hp, hp'] at h
  have hlast := (List.append_inj' h rfl).2
  rw [List.singleton_inj, lastName_localName, lastName_localName] at hlast
  exact eq_of_dash hlast

/-- A name that fits stands in the array. -/
theorem localPath_holds {b b' : Buffer localPathSize} (hzero : (0 : UInt8) ∉ reqPath)
    (h : localPath reqPath n b = some b') :
  Holds b' 0 (localName reqPath n)
  := by
  have hfree : (0 : UInt8) ∉ localName reqPath n := by
    rw [localName]
    intro hmem
    rcases List.mem_append.mp hmem with hmem | hdigit
    · rcases List.mem_append.mp hmem with hpath | hmem
      · exact hzero (List.mem_of_mem_drop hpath)
      · revert hmem
        decide
    · have hdigit' := isDigit_of_mem_percent06d hdigit
      revert hdigit'
      decide
  rw [localPath] at h
  obtain ⟨hfits, hb⟩ := Option.ite_none_right_eq_some.mp h
  obtain rfl := Option.some.inj hb
  have hholds := @holds_store _ b (localName reqPath n) hfits
  rw [cstr_of_free hfree] at hholds
  exact hholds

end

end GetFile.Client
