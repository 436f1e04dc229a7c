import GetFile.Exchange.Transfer
import GetFile.Server.ContentInit

/-!
# From the content file to the clients

A content file is loaded, the records are sorted, and the server answers one client after the
other. `Provides` says what the content file has for a path; a client whose exchange is not
disturbed ends with exactly that (`Serves.delivered`).
-/

namespace GetFile.Exchange

open CString Transition

/-- What the content file has for a key: the bytes on the disk of the file that some row names for
the key, or nothing when no row has the key. -/
def Provides (text : List UInt8) (disk : List UInt8 → List UInt8) (key : List UInt8) :
    Option (List UInt8) → Prop
  | none => ∀ line ∈ lines text, ∀ path, ¬ Server.Splits (Server.row line) key path
  | some file => ∃ line ∈ lines text, ∃ path, Server.Splits (Server.row line) key path ∧
      disk path = file

/-- The server has loaded a content file and sorted its records: the loop handles its text, the
files that it names can be opened, and what a descriptor reads is the file for which it was
opened. -/
structure Site (env : Server.Surroundings) (text : List UInt8) (disk : List UInt8 → List UInt8)
    (items : List Server.Item) (files : ℤ → List UInt8) : Prop where
  fits : Server.FitsText text
  opens : ∀ line ∈ lines text, ∀ key path, Server.Splits (Server.row line) key path →
    ∀ i, 0 ≤ env.opens i path
  sorts : ∃ records, Server.contentInit env text = some records ∧
    Server.Sorts (records.map Server.Record.toItem) items
  files : ∀ i path, 0 ≤ env.opens i path → files (env.opens i path) = disk path

section

variable {env : Server.Surroundings} {text : List UInt8} {disk : List UInt8 → List UInt8}
  {items : List Server.Item} {files : ℤ → List UInt8}

/-- The row of a line that the loop handles has a delimiter. -/
theorem hasBlank_of_fits {line : List UInt8} (h : Server.FitsLine line) :
  Server.hasBlank (Server.row line) = true
  := by
  obtain ⟨key, path, hsplits⟩ := Server.exists_splits h.splits.1
  exact (h.splits.2 key path hsplits).hasBlank

/-- The bytes in front of the first delimiter. -/
theorem takeWhile_free {s rest : List UInt8} (hfree : ∀ c ∈ s, c ∉ Server.blanks)
    (hrest : rest = [] ∨ ∃ d rest', rest = d :: rest' ∧ d ∈ Server.blanks) :
  (s ++ rest).takeWhile (fun c => !Server.blanks.contains c) = s
  := by
  rw [List.takeWhile_append_of_pos (by simpa using hfree)]
  rcases hrest with rfl | ⟨d, rest', rfl, hd⟩
  · simp
  · rw [List.takeWhile_cons_of_neg (by simpa using hd), List.append_nil]

/-- A row is split at its first two delimiters. -/
theorem takeWhile_splits {row key path : List UInt8} (h : Server.Splits row key path) :
  key = row.takeWhile (fun c => !Server.blanks.contains c) ∧
    path = (row.drop (key.length + 1)).takeWhile (fun c => !Server.blanks.contains c)
  := by
  have hdrop : ∀ (key rest : List UInt8) (d : UInt8),
      (key ++ d :: rest).drop (key.length + 1) = rest := by
    intro key rest d
    rw [← List.drop_drop, List.drop_left]
    rfl
  cases h with
  | @toEnd _ _ d hkey hd hpath =>
      constructor
      · rw [takeWhile_free hkey (Or.inr ⟨d, path, rfl, hd⟩)]
      · have htake := takeWhile_free hpath (Or.inl rfl)
        rw [List.append_nil] at htake
        rw [hdrop, htake]
  | @toBlank _ _ rest d d' hkey hd hpath hd' =>
      constructor
      · rw [takeWhile_free hkey (Or.inr ⟨d, _, rfl, hd⟩)]
      · rw [hdrop, takeWhile_free hpath (Or.inr ⟨d', rest, rfl, hd'⟩)]

/-- A key and a path that a row is split into are the only ones. -/
theorem splits_unique {row key path key' path' : List UInt8} (h : Server.Splits row key path)
    (h' : Server.Splits row key' path') :
  key = key' ∧ path = path'
  := by
  obtain ⟨hkey, hpath⟩ := takeWhile_splits h
  obtain ⟨hkey', hpath'⟩ := takeWhile_splits h'
  have heq : key = key' := hkey.trans hkey'.symm
  subst heq
  exact ⟨rfl, hpath.trans hpath'.symm⟩

theorem exists_of_forall₂ {α β : Type} {R : α → β → Prop} {as : List α} {bs : List β}
    (h : List.Forall₂ R as bs) :
  (∀ a ∈ as, ∃ b ∈ bs, R a b) ∧ ∀ b ∈ bs, ∃ a ∈ as, R a b
  := by
  obtain ⟨hlength, hget⟩ := List.forall₂_iff_get.mp h
  constructor
  · intro a ha
    obtain ⟨i, hi, rfl⟩ := List.mem_iff_getElem.mp ha
    exact ⟨bs[i], List.getElem_mem _, hget i hi (by omega)⟩
  · intro b hb
    obtain ⟨i, hi, rfl⟩ := List.mem_iff_getElem.mp hb
    exact ⟨as[i], List.getElem_mem _, hget i (by omega) hi⟩

/-- The items are the rows of the content file, each with a descriptor that reads the file of its
path. -/
theorem Site.records (h : Site env text disk items files) :
  ∃ records : List Server.Record, Server.Loaded (records.map Server.Record.toItem) ∧
    Server.Sorts (records.map Server.Record.toItem) items ∧
    (∀ r ∈ records, files r.fildes = disk r.path) ∧
    List.Forall₂ (fun line r => Server.Splits (Server.row line) r.key r.path)
      (lines text) records
  := by
  obtain ⟨records, hload, hsorts⟩ := h.sorts
  obtain ⟨⟨records', hload', hopened, hrows⟩, -⟩ :=
    (Server.loadTable_builds_iff text).mpr h.fits env h.opens
  have hloaded := Server.contentInit_loaded hload
  obtain rfl : records' = records := by
    rw [Server.contentInit, hload'] at hload
    exact Option.some.inj hload
  have hall : ((lines text).map Server.row).filter Server.hasBlank =
      (lines text).map Server.row := by
    rw [List.filter_eq_self]
    intro row hrow
    obtain ⟨line, hline, rfl⟩ := List.mem_map.mp hrow
    exact hasBlank_of_fits (h.fits.line line hline)
  rw [hall, List.forall₂_map_left_iff] at hrows
  refine ⟨records', hloaded, hsorts, ?_, hrows⟩
  intro r hr
  obtain ⟨i, hi, rfl⟩ := List.mem_iff_getElem.mp hr
  have hnonneg := hloaded.fildes _ (List.mem_map_of_mem hr)
  rw [hopened i hi] at hnonneg ⊢
  exact h.files i _ hnonneg

/-- What has been loaded is found again: for a key of some row, `content_get` returns a descriptor
that reads the file of such a row, and for any other key it returns `-1`. -/
theorem Site.contentGet (h : Site env text disk items files) (key : List UInt8) :
  (∃ file fildes, Provides text disk key (some file) ∧
      Server.contentGet items (some key) = some fildes ∧ 0 ≤ fildes ∧ files fildes = file) ∨
    (Provides text disk key none ∧ Server.contentGet items (some key) = some (-1))
  := by
  obtain ⟨records, hloaded, hsorts, hfiles, hrows⟩ := h.records
  have hsmall : items.length < 2 ^ 31 := by
    rw [hsorts.perm.length_eq]
    exact hloaded.small
  obtain ⟨-, hanswers⟩ := @Server.searchChecked_spec _ _ _ _ key hsorts hsmall items.length
    (Server.between_start items key) (by omega)
  have hget : ∀ fildes, Server.search items key items.length 0 (items.length - 1) = fildes →
      Server.contentGet items (some key) = some fildes := by
    rintro _ rfl
    rfl
  generalize hsearch : Server.search items key items.length 0 (items.length - 1) = fildes
    at hanswers
  cases hanswers with
  | found item mem eq =>
      left
      obtain ⟨r, hr, rfl⟩ := List.mem_map.mp (hsorts.perm.mem_iff.mp mem)
      obtain ⟨line, hline, hsplits⟩ : ∃ line ∈ lines text,
          Server.Splits (Server.row line) r.key r.path := (exists_of_forall₂ hrows).2 r hr
      refine ⟨disk r.path, r.fildes, ⟨line, hline, r.path, ?_, rfl⟩, hget _ hsearch, ?_,
        hfiles r hr⟩
      · rw [← eq]
        exact hsplits
      · exact hloaded.fildes _ (List.mem_map_of_mem hr)
  | absent none =>
      right
      refine ⟨?_, hget _ hsearch⟩
      intro line hline path hsplits
      obtain ⟨r, hr, hmade⟩ := (exists_of_forall₂ hrows).1 line hline
      apply none r.toItem (hsorts.perm.mem_iff.mpr (List.mem_map_of_mem hr))
      exact (splits_unique hmade hsplits).1

/-! ### One client after the other -/

/-- A client's call of `gfc_perform`: the path, the saved pointer of `strtok` that earlier calls
have left, and what happens on the way. -/
structure Call where
  path : List UInt8
  next : ℕ
  wire : Wire

/-- Whatever the content file has for the path of the call: the file is one that the client can
receive, the request is read in place, and the header is written in full and read at once. Of the
chunks of the file nothing is said. -/
structure InOrder (text : List UInt8) (disk : List UInt8 → List UInt8) (call : Call) :
    Prop where
  isPath : Server.IsPath call.path
  file : ∀ file, Provides text disk call.path (some file) → 1 ≤ file.length ∧
    file.length < 2 ^ 31 ∧ call.wire.Untorn call.path .ok file.length
  none : Provides text disk call.path none → call.wire.Untorn call.path .fileNotFound 0

/-- The chunks of whatever file the content file has are read and written without a failure. -/
def Call.Undisturbed (text : List UInt8) (disk : List UInt8 → List UInt8) (call : Call) : Prop :=
  ∀ file, Provides text disk call.path (some file) →
    ∀ i < file.length, Server.Successful 4096 (call.wire.ios i)

/-- The client ends with what the content file has for its path: with the whole file and `GF_OK`, or
with `GF_FILE_NOT_FOUND` and nothing handed over. -/
def Delivered (text : List UInt8) (disk : List UInt8 → List UInt8) (call : Call) : Prop :=
  (∃ file, Provides text disk call.path (some file) ∧
      Client.Received file file (gfcPerform call.path call.next call.wire)) ∨
    (Provides text disk call.path none ∧
      Client.NotFound (gfcPerform call.path call.next call.wire))

/-- The client ends with a negative value and with a beginning of the file that the content file has
for its path. -/
def Interrupted (text : List UInt8) (disk : List UInt8 → List UInt8) (call : Call) : Prop :=
  ∃ file part, Provides text disk call.path (some file) ∧ part <+: file ∧ part ≠ file ∧
    Client.Received file part (gfcPerform call.path call.next call.wire)

/-- One call on a server that listens: the client ends with what the content file has, or it is
interrupted and the server stops listening. -/
theorem Site.call (h : Site env text disk items files) {gfs gfs' : Server.Gfserver}
    {call : Call} (hlisten : gfs.listening = true)
    (hjoined : Joined items files gfs call.path call.next call.wire)
    (hgoesOn : (Server.serveConnection items files gfs call.wire.conn).2 = some gfs')
    (hcall : InOrder text disk call) :
  (Delivered text disk call ∧ gfs'.listening = true) ∨
    (Interrupted text disk call ∧ gfs'.listening = false ∧ ¬ call.Undisturbed text disk)
  := by
  rcases h.contentGet call.path with ⟨file, fildes, hprovides, hget, hfound, rfl⟩ | ⟨hnone, hget⟩
  · obtain ⟨hone, hsmall, huntorn⟩ := hcall.file _ hprovides
    obtain ⟨part, saved, listening, hpart, hserve, hreceived, hlistens, hall⟩ :=
      hjoined.transfer hcall.isPath hlisten hget hfound huntorn hone hsmall
    obtain rfl := Option.some.inj (hgoesOn.symm.trans hserve)
    by_cases hfile : part = files fildes
    · left
      subst hfile
      exact ⟨Or.inl ⟨_, hprovides, hreceived⟩, hlistens.mpr rfl⟩
    · right
      refine ⟨⟨_, part, hprovides, hpart, hfile, hreceived⟩, ?_, ?_⟩
      · simpa using mt hlistens.mp hfile
      · intro hundisturbed
        exact hfile (hall (hundisturbed _ hprovides))
  · left
    obtain ⟨⟨saved, hserve⟩, hnotFound⟩ :=
      hjoined.absent hcall.isPath hlisten hget (hcall.none hnone)
    obtain rfl := Option.some.inj (hgoesOn.symm.trans hserve)
    exact ⟨Or.inr ⟨hnone, hnotFound⟩, rfl⟩

/-- A call is only joined to a server that listens. -/
theorem Joined.listening {gfs : Server.Gfserver} {path : List UInt8} {next : ℕ} {wire : Wire}
    (h : Joined items files gfs path next wire) :
  gfs.listening = true
  := by
  have haccepted := @Server.serveConnection_accepted items files gfs wire.conn
  rw [h.reply] at haccepted
  exact haccepted.symm

/-- The row `/a f`, with files that consist of the byte `A`. -/
theorem provides_one {key : List UInt8} {answer : Option (List UInt8)}
    (h : Provides (ascii "/a f\n") (fun _ => ascii "A") key answer) :
  answer = if key = ascii "/a" then some (ascii "A") else none
  := by
  have hlines : lines (ascii "/a f\n") = [ascii "/a f\n"] := by decide
  have hrow : Server.row (ascii "/a f\n") = ascii "/a" ++ space :: ascii "f" := by decide
  have hsplits : Server.Splits (Server.row (ascii "/a f\n")) (ascii "/a") (ascii "f") := by
    rw [hrow]
    apply Server.Splits.toEnd
    · decide +kernel
    · decide
    · decide +kernel
  cases answer with
  | none =>
      rw [if_neg]
      rintro rfl
      apply h _ _ _ hsplits
      rw [hlines]
      apply List.mem_singleton_self
  | some file =>
      obtain ⟨line, hline, path, hline', rfl⟩ := h
      rw [hlines] at hline
      obtain rfl := List.mem_singleton.mp hline
      rw [if_pos (splits_unique hline' hsplits).1]

/-- A server that has loaded the row. -/
theorem site_one :
  Site ⟨fun _ => Buffer.zero _, fun _ _ => 3⟩ (ascii "/a f\n") (fun _ => ascii "A")
    [⟨3, ascii "/a"⟩] (fun _ => ascii "A")
  where
  fits := by
    constructor
    · decide
    · have hlines : lines (ascii "/a f\n") = [ascii "/a f\n"] := by decide
      rw [hlines]
      intro line hline
      obtain rfl := List.mem_singleton.mp hline
      exact ⟨by decide, Or.inl ⟨by decide, by decide, by decide⟩⟩
  opens _ _ _ _ _ _ := show (0 : ℤ) ≤ 3 by decide
  sorts := by
    refine ⟨[⟨⟨3, ascii "/a"⟩, ascii "f"⟩], by decide +kernel, List.Perm.refl _, ?_⟩
    simp
  files _ _ _ := rfl

/-- What has been loaded is found again, by the server and by the cache: a descriptor that is found
reads a file that the content file has for the key, and none is found exactly when it has none. -/
theorem Site.lookup_provides (h : Site env text disk items files) (key : List UInt8) :
  ∃ fildes, Server.contentGet items (some key) = some fildes ∧
    Server.simplecacheGet items key = fildes ∧
    (0 ≤ fildes → Provides text disk key (some (files fildes))) ∧
    (fildes < 0 ↔ Provides text disk key none)
  := by
  rcases h.contentGet key with ⟨file, fildes, hprovides, hget, hfound, rfl⟩ | ⟨hnone, hget⟩
  · refine ⟨fildes, hget, Option.some.inj hget, fun _ => hprovides, ?_⟩
    constructor
    · intro hneg
      omega
    · intro hnone
      obtain ⟨line, hline, path, hsplits, -⟩ := hprovides
      exact absurd hsplits (hnone line hline path)
  · refine ⟨-1, hget, Option.some.inj hget, ?_, ?_⟩
    · intro hfound
      omega
    · simpa using hnone

theorem lookup_one :
  ∃ fildes, Server.contentGet [⟨3, ascii "/a"⟩] (some (ascii "/a")) = some fildes ∧
    Server.simplecacheGet [⟨3, ascii "/a"⟩] (ascii "/a") = fildes ∧
    (0 ≤ fildes → Provides (ascii "/a f\n") (fun _ => ascii "A") (ascii "/a") (some (ascii "A"))) ∧
    (fildes < 0 ↔ Provides (ascii "/a f\n") (fun _ => ascii "A") (ascii "/a") none)
  := site_one.lookup_provides (ascii "/a")

end

end GetFile.Exchange
