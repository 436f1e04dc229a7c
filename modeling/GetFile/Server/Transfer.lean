import GetFile.Server.Content
import GetFile.Server.Serve

/-!
# Server: the response with a file

`handler_get` of the server and `handler_perform` of the multithreaded one are the same loop
with buffers of different sizes. What they write is the response with the file, up to the first
failure, provided that the header is written in full: they do not look at what
`gfs_sendheader` returns (`streams_iff`).
-/

namespace GetFile.Server

open CString Transition

/-! ### The handlers -/

/-- What `write` does with `data`: it fails, or it takes up to so many bytes. The bytes that
reach the client, and what it returns. -/
def write (data : List UInt8) : Option ℕ → List UInt8 × ℤ
  | none => ([], -1)
  | some n => (data.take n, (data.take n).length)

/-- What `pread` reads from a file at an offset, when it is asked for `size` bytes: it fails, or
it reads up to so many of them. -/
def pread (file : List UInt8) (size offset : ℕ) : Option ℕ → Option (List UInt8)
  | none => none
  | some n => some ((file.drop offset).take (min n size))

/-- What happens to the read and to the write of one chunk. -/
structure Io where
  read : Option ℕ
  write : Option ℕ

/-- A transfer at the head of the loop: the bytes that have reached the client, with the header,
and the local variable `bytes_transferred`. -/
structure Transfer where
  sent : List UInt8
  bytesTransferred : ℕ

/-- A handler at the end of its loop or when it waits: the bytes that have reached the client,
what it has returned, and whether it has called `gfs_abort`. -/
structure Handled where
  sent : List UInt8
  returned : Option ℤ
  aborted : Bool
  deriving DecidableEq

/-- One round of the loop, with a buffer of `bufferSize` bytes. -/
def chunk (bufferSize : ℕ) (file : List UInt8) (t : Transfer) (io : Io) : Round Transfer Handled :=
  if t.bytesTransferred < file.length then
    match pread file bufferSize t.bytesTransferred io.read with
    | none => .leave ⟨t.sent, some (-1), true⟩
    | some data =>
      if data.length = 0 then .leave ⟨t.sent, some (-1), true⟩
      else
        let w := write data io.write
        if w.2 ≠ data.length then .leave ⟨t.sent ++ w.1, some (-1), true⟩
        else .again ⟨t.sent ++ w.1, t.bytesTransferred + data.length⟩
  else .leave ⟨t.sent, some t.bytesTransferred, false⟩

/-- The handler when the outcomes end: it has returned, or it waits for the next one. -/
def pause (file : List UInt8) (t : Transfer) : Handled :=
  if t.bytesTransferred < file.length then ⟨t.sent, none, false⟩
  else ⟨t.sent, some t.bytesTransferred, false⟩

/-- A handler with a buffer of `bufferSize` bytes, up to the end of the outcomes `ios` of its
chunks, where `header` is that of the write of the header and `files` gives the bytes behind a
descriptor. -/
def handler (bufferSize : ℕ) (items : List Item) (files : ℤ → List UInt8)
    (path : Option (List UInt8)) (header : Option ℕ) (ios : List Io) : Option Handled :=
  (contentGet items path).map fun fildes =>
    if fildes < 0 then
      let w := write (gfsSendheader .fileNotFound 0) header
      ⟨w.1, some w.2, false⟩
    else
      let file := files fildes
      feed (chunk bufferSize file) (pause file)
        ⟨(write (gfsSendheader .ok file.length) header).1, 0⟩ ios

/-- `handler_get` of the server. -/
def handlerGet : List Item → (ℤ → List UInt8) → Option (List UInt8) → Option ℕ → List Io →
    Option Handled :=
  handler 4096

/-- `handler_perform` of the multithreaded server. -/
def handlerPerform : List Item → (ℤ → List UInt8) → Option (List UInt8) → Option ℕ → List Io →
    Option Handled :=
  handler 80

/-! ### What the client gets -/

/-- The whole response with a file. -/
def response (file : List UInt8) : List UInt8 :=
  gfsSendheader .ok file.length ++ file

/-- The bytes that reach the client are the beginning of the response, they are all of it
exactly when the handler returns the length of the file, and otherwise it returns `-1` after
aborting; and it does return when there is an outcome for each byte of the file. -/
structure StreamRight (file : List UInt8) (ios : List Io) (h : Handled) : Prop where
  sent : h.sent <+: response file
  whole : h.returned ≠ none → (h.sent = response file ↔ h.returned = some (file.length : ℤ))
  failed : h.returned ≠ none → h.returned ≠ some (file.length : ℤ) →
    h.returned = some (-1) ∧ h.aborted = true
  returns : file.length ≤ ios.length → h.returned ≠ none

/-- A chunk without a failure: some bytes are read, and all of them are written. -/
structure Successful (bufferSize : ℕ) (io : Io) : Prop where
  reads : ∃ n, io.read = some n ∧ 0 < n
  writes : ∃ n, io.write = some n ∧ bufferSize ≤ n

/-- The write of the header takes all of it. -/
def HeaderWritten (file : List UInt8) (header : Option ℕ) : Prop :=
  ∃ n, header = some n ∧ (gfsSendheader .ok file.length).length ≤ n

/-- The handlers of both servers send the right bytes, whatever happens to the chunks, and
without failures they send the same. -/
structure StreamsRight (items : List Item) (files : ℤ → List UInt8) (path : Option (List UInt8))
    (header : Option ℕ) (file : List UInt8) : Prop where
  get : ∀ ios, ∃ h, handlerGet items files path header ios = some h ∧ StreamRight file ios h
  perform : ∀ ios, ∃ h, handlerPerform items files path header ios = some h ∧
    StreamRight file ios h
  same : ∀ ios ios' h h', (∀ io ∈ ios, Successful 4096 io) → (∀ io ∈ ios', Successful 80 io) →
    file.length ≤ ios.length → file.length ≤ ios'.length →
    handlerGet items files path header ios = some h →
    handlerPerform items files path header ios' = some h' → h.sent = h'.sent

/-- A header is not empty. -/
theorem length_gfsSendheader_pos (len : ℕ) :
  0 < (gfsSendheader .ok len).length
  := by
  have hhead : (ascii "GETFILE ").length = 8 := rfl
  simp only [gfsSendheader, List.length_append, hhead]
  omega

section

variable {bufferSize : ℕ} {file start : List UInt8} {t : Transfer} {io : Io} {ios : List Io}

/-- At the head of the loop, behind the bytes `start`, as much of the file has been sent as
`bytes_transferred` says. -/
structure Sending (start file : List UInt8) (t : Transfer) : Prop where
  sent : t.sent = start ++ file.take t.bytesTransferred
  le : t.bytesTransferred ≤ file.length

/-- What a round can do: return, abort with a part of the file still missing, or go on with some
bytes more. -/
inductive ChunkCase (file : List UInt8) (t : Transfer) : Round Transfer Handled → Prop where
  | done (all : file.length ≤ t.bytesTransferred) :
      ChunkCase file t (.leave ⟨t.sent, some t.bytesTransferred, false⟩)
  | abort {part : List UInt8} (le : part <+: file.drop t.bytesTransferred)
      (lt : t.bytesTransferred + part.length < file.length) :
      ChunkCase file t (.leave ⟨t.sent ++ part, some (-1), true⟩)
  | again {data : List UInt8} (le : data <+: file.drop t.bytesTransferred) (pos : 0 < data.length) :
      ChunkCase file t (.again ⟨t.sent ++ data, t.bytesTransferred + data.length⟩)

theorem chunk_cases (bufferSize : ℕ) (file : List UInt8) (t : Transfer) (io : Io) :
  ChunkCase file t (chunk bufferSize file t io)
  := by
  rw [chunk]
  split
  · rename_i hlt
    cases hread : io.read with
    | none =>
        have hcase := @ChunkCase.abort file t [] List.nil_prefix (by simpa using hlt)
        rw [List.append_nil] at hcase
        apply hcase
    | some n =>
        simp only [pread]
        generalize hdata : (file.drop t.bytesTransferred).take (min n bufferSize) = data
        have hbegins : data <+: file.drop t.bytesTransferred := by
          rw [← hdata]
          apply List.take_prefix
        have hle := hbegins.length_le
        rw [List.length_drop] at hle
        split
        · have hcase := @ChunkCase.abort file t [] List.nil_prefix (by simpa using hlt)
          rw [List.append_nil] at hcase
          apply hcase
        · rename_i hne
          have hpart : (write data io.write).1 <+: data := by
            cases io.write with
            | none => apply List.nil_prefix
            | some m => apply List.take_prefix
          split
          · rename_i hshort
            apply ChunkCase.abort (hpart.trans hbegins)
            have hlength : (write data io.write).1.length ≠ data.length := by
              intro heq
              apply hshort
              cases hw : io.write with
              | none =>
                  rw [hw] at heq
                  exact absurd heq.symm hne
              | some m =>
                  rw [hw] at heq
                  simp only [write] at heq ⊢
                  omega
            have hpart_le := hpart.length_le
            omega
          · rename_i hfull
            have hall : (write data io.write).1 = data := by
              apply hpart.eq_of_length
              cases hw : io.write with
              | none =>
                  rw [hw] at hfull
                  simp only [write] at hfull
                  omega
              | some m =>
                  rw [hw] at hfull
                  simp only [write, ne_eq, Decidable.not_not] at hfull ⊢
                  omega
            rw [hall]
            apply ChunkCase.again hbegins
            omega
  · rename_i hge
    apply ChunkCase.done
    omega

/-- The part of the file behind the first `n` bytes continues them. -/
theorem take_of_prefix {part : List UInt8} {n : ℕ} (h : part <+: file.drop n) :
  file.take n ++ part = file.take (n + part.length)
  := by
  rw [List.take_add, ← List.prefix_iff_eq_take.mp h]

/-- How a transfer ends or pauses behind the bytes `start`. -/
inductive Ended (start file : List UInt8) : Handled → Prop where
  | waits (n : ℕ) (lt : n < file.length) : Ended start file ⟨start ++ file.take n, none, false⟩
  | done : Ended start file ⟨start ++ file, some file.length, false⟩
  | aborted (n : ℕ) (lt : n < file.length) :
      Ended start file ⟨start ++ file.take n, some (-1), true⟩

/-- A transfer of which all has been sent is done. -/
theorem Sending.done (h : Sending start file t) (hall : file.length ≤ t.bytesTransferred) :
  Ended start file ⟨t.sent, some t.bytesTransferred, false⟩
  := by
  have heq : t.bytesTransferred = file.length := Nat.le_antisymm h.le hall
  rw [h.sent, heq, List.take_length]
  exact .done

/-- A round sends the file on. -/
theorem Sending.again {data : List UInt8} (h : Sending start file t)
    (hle : data <+: file.drop t.bytesTransferred) :
  Sending start file ⟨t.sent ++ data, t.bytesTransferred + data.length⟩
  := by
  have hlength := hle.length_le
  rw [List.length_drop] at hlength
  have hn := h.le
  constructor
  · rw [h.sent, List.append_assoc, take_of_prefix hle]
  · dsimp only
    omega

/-- A transfer ends or pauses with the beginning of the file behind `start`. -/
theorem Sending.ended (h : Sending start file t) (bufferSize : ℕ) (ios : List Io) :
  Ended start file (feed (chunk bufferSize file) (pause file) t ios)
  := by
  refine feed_rule (I := fun t _ => Sending start file t) ?_ ?_ ?_ h
  · intro t h
    rw [pause]
    split
    · rename_i hlt
      rw [h.sent]
      exact .waits _ hlt
    · rename_i hge
      apply h.done
      omega
  · intro t io ios t' h hround
    have hcase := chunk_cases bufferSize file t io
    rw [hround] at hcase
    cases hcase with
    | again le pos => exact h.again le
  · intro t io ios b h hround
    have hcase := chunk_cases bufferSize file t io
    rw [hround] at hcase
    cases hcase with
    | done all => exact h.done all
    | @abort part le lt =>
        rw [h.sent, List.append_assoc, take_of_prefix le]
        exact .aborted _ lt

/-- A transfer returns after as many chunks as bytes are missing. -/
theorem feed_returns (bufferSize : ℕ) (h : file.length ≤ t.bytesTransferred + ios.length) :
  (feed (chunk bufferSize file) (pause file) t ios).returned ≠ none
  := by
  induction ios generalizing t with
  | nil =>
      rw [List.length_nil, Nat.add_zero] at h
      rw [feed_nil, pause, if_neg (by omega)]
      exact Option.some_ne_none _
  | cons io ios ih =>
      have hcase := chunk_cases bufferSize file t io
      rw [feed_cons]
      generalize chunk bufferSize file t io = x at hcase
      cases hcase with
      | done all => exact Option.some_ne_none _
      | abort le lt => exact Option.some_ne_none _
      | again le pos =>
          rw [Round.feed_again]
          apply ih
          rw [List.length_cons] at h
          dsimp only
          omega

/-- Without a failure a chunk does not abort. -/
theorem Successful.not_aborted (h : Successful bufferSize io) (hb : 0 < bufferSize) :
  (∃ t', chunk bufferSize file t io = .again t') ∨
    chunk bufferSize file t io = .leave ⟨t.sent, some t.bytesTransferred, false⟩
  := by
  obtain ⟨⟨n, hread, hn⟩, m, hwrite, hm⟩ := h
  rw [chunk]
  split
  · rename_i hlt
    left
    rw [hread]
    simp only [pread]
    generalize hdata : (file.drop t.bytesTransferred).take (min n bufferSize) = data
    have hlength : data.length = min (min n bufferSize) (file.length - t.bytesTransferred) := by
      rw [← hdata, List.length_take, List.length_drop]
    have hwritten : write data io.write = (data, (data.length : ℤ)) := by
      rw [hwrite, write, List.take_of_length_le (by omega)]
    rw [if_neg (by omega), hwritten, if_neg (by simp)]
    exact ⟨_, rfl⟩
  · right
    rfl

/-- Without failures a transfer does not abort. -/
theorem feed_not_aborted (hb : 0 < bufferSize) (hios : ∀ io ∈ ios, Successful bufferSize io) :
  (feed (chunk bufferSize file) (pause file) t ios).aborted = false
  := by
  induction ios generalizing t with
  | nil =>
      rw [feed_nil, pause]
      split
      · rfl
      · rfl
  | cons io ios ih =>
      obtain ⟨t', hround⟩ | hround := @Successful.not_aborted _ file t _ (hios io List.mem_cons_self) hb
      · rw [feed_again hround]
        apply ih
        intro io' hio'
        apply hios io' (List.mem_cons_of_mem _ hio')
      · rw [feed_leave hround]

/-- Without failures, and with an outcome for each byte, the whole file is sent. -/
theorem Sending.all (h : Sending start file t) (hb : 0 < bufferSize)
    (hios : ∀ io ∈ ios, Successful bufferSize io)
    (hlen : file.length ≤ t.bytesTransferred + ios.length) :
  feed (chunk bufferSize file) (pause file) t ios = ⟨start ++ file, some file.length, false⟩
  := by
  have hended := h.ended bufferSize ios
  have hreturns := feed_returns bufferSize hlen
  have hgood := @feed_not_aborted _ file t _ hb hios
  generalize feed (chunk bufferSize file) (pause file) t ios = x at hended hreturns hgood
  cases hended with
  | waits n lt => exact absurd rfl hreturns
  | done => rfl
  | aborted n lt => cases hgood

/-! ### The two handlers -/

/-- Behind the whole header, every end of a transfer is right. -/
theorem Ended.streamRight {h : Handled} (he : Ended (gfsSendheader .ok file.length) file h)
    (hreturns : file.length ≤ ios.length → h.returned ≠ none) :
  StreamRight file ios h
  := by
  have hne : ∀ n, n < file.length → gfsSendheader .ok file.length ++ file.take n ≠ response file := by
    intro n hn heq
    have hlength := congrArg List.length (List.append_cancel_left heq)
    rw [List.length_take] at hlength
    omega
  have hbegins : ∀ n, gfsSendheader .ok file.length ++ file.take n <+: response file := by
    intro n
    rw [response, List.prefix_append_right_inj]
    apply List.take_prefix
  cases he with
  | waits n lt =>
      exact ⟨hbegins n, fun h => absurd rfl h, fun h => absurd rfl h, hreturns⟩
  | done =>
      exact ⟨List.prefix_rfl, fun _ => ⟨fun _ => rfl, fun _ => rfl⟩, fun _ h => absurd rfl h, hreturns⟩
  | aborted n lt =>
      refine ⟨hbegins n, fun _ => ⟨fun heq => absurd heq (hne n lt), ?_⟩, fun _ _ => ⟨rfl, rfl⟩,
        hreturns⟩
      intro heq
      have hvalue : (-1 : ℤ) = file.length := Option.some.inj heq
      omega

variable {items : List Item} {files : ℤ → List UInt8} {path : Option (List UInt8)} {fildes : ℤ}
  {header : Option ℕ}

/-- A handler that finds the file sends it behind what reaches the client of the header. -/
theorem handler_eq (bufferSize : ℕ) (hget : contentGet items path = some fildes) (hfound : 0 ≤ fildes)
    (header : Option ℕ) (ios : List Io) :
  handler bufferSize items files path header ios =
    some (feed (chunk bufferSize (files fildes)) (pause (files fildes))
      ⟨(write (gfsSendheader .ok (files fildes).length) header).1, 0⟩ ios)
  := by
  rw [handler, hget, Option.map_some, if_neg (by omega)]

/-- Nothing of the file has been sent yet. -/
theorem sending_start (start file : List UInt8) :
  Sending start file ⟨start, 0⟩
  := ⟨by rw [List.take_zero, List.append_nil], Nat.zero_le _⟩

/-- A header that is written in full reaches the client. -/
theorem HeaderWritten.write_eq (h : HeaderWritten file header) :
  (write (gfsSendheader .ok file.length) header).1 = gfsSendheader .ok file.length
  := by
  obtain ⟨n, rfl, hn⟩ := h
  exact List.take_of_length_le hn

/-- With the header written in full, a handler sends the right bytes. -/
theorem handler_right (hget : contentGet items path = some fildes) (hfound : 0 ≤ fildes)
    (hwritten : HeaderWritten (files fildes) header) (bufferSize : ℕ) (ios : List Io) :
  ∃ h, handler bufferSize items files path header ios = some h ∧ StreamRight (files fildes) ios h
  := by
  rw [handler_eq bufferSize hget hfound]
  refine ⟨_, rfl, ?_⟩
  rw [hwritten.write_eq]
  apply ((sending_start _ _).ended bufferSize ios).streamRight
  intro hlen
  apply feed_returns
  simpa using hlen

/-- Without failures, a handler sends the file behind what reaches the client of the header. -/
theorem handler_all (hget : contentGet items path = some fildes) (hfound : 0 ≤ fildes)
    (hb : 0 < bufferSize) (hios : ∀ io ∈ ios, Successful bufferSize io)
    (hlen : (files fildes).length ≤ ios.length) :
  handler bufferSize items files path header ios =
    some ⟨(write (gfsSendheader .ok (files fildes).length) header).1 ++ files fildes,
      some (files fildes).length, false⟩
  := by
  rw [handler_eq bufferSize hget hfound, (sending_start _ _).all hb hios (by simpa using hlen)]

/-- When a part of the header does not reach the client, a transfer without failures returns the
length of the file although the client has not got the response. -/
theorem headerWritten_of_right (hget : contentGet items path = some fildes) (hfound : 0 ≤ fildes)
    (hb : 0 < bufferSize)
    (hright : ∀ ios, ∃ h, handler bufferSize items files path header ios = some h ∧
      StreamRight (files fildes) ios h) :
  HeaderWritten (files fildes) header
  := by
  have hios : ∀ io ∈ List.replicate (files fildes).length (Io.mk (some bufferSize) (some bufferSize)),
      Successful bufferSize io := by
    intro io hio
    rw [List.eq_of_mem_replicate hio]
    exact ⟨⟨_, rfl, hb⟩, _, rfl, le_rfl⟩
  obtain ⟨h, hhandler, hstream⟩ := hright
    (List.replicate (files fildes).length (Io.mk (some bufferSize) (some bufferSize)))
  rw [handler_all hget hfound hb hios (by rw [List.length_replicate])] at hhandler
  cases hhandler
  have hwhole := (hstream.whole (Option.some_ne_none _)).mpr rfl
  have hheader := List.append_cancel_right hwhole
  cases header with
  | none =>
      have hlength := congrArg List.length hheader
      have hpos := length_gfsSendheader_pos (files fildes).length
      rw [write, List.length_nil] at hlength
      omega
  | some n =>
      have hlength := congrArg List.length hheader
      rw [write, List.length_take] at hlength
      exact ⟨n, rfl, by omega⟩

/-- For every content table, every file found in it and every outcome of the write of the header:
both handlers send the right bytes, whatever happens to the chunks, and without failures the
same, if and only if the header is written in full. -/
theorem streams_iff (hget : contentGet items path = some fildes) (hfound : 0 ≤ fildes) :
  StreamsRight items files path header (files fildes) ↔ HeaderWritten (files fildes) header
  := by
  constructor
  · intro h
    apply headerWritten_of_right hget hfound (by decide) h.get
  · intro hwritten
    constructor
    · apply handler_right hget hfound hwritten
    · apply handler_right hget hfound hwritten
    · intro ios ios' h h' hios hios' hlen hlen' hh hh'
      rw [handlerGet, handler_all hget hfound (by decide) hios hlen] at hh
      rw [handlerPerform, handler_all hget hfound (by decide) hios' hlen'] at hh'
      cases hh
      cases hh'
      rfl

end

/-- A file of one byte behind a header that is written in full. -/
theorem streams_iff_one :
  StreamsRight [⟨3, [47]⟩] (fun _ => [65]) (some [47]) (some 100) [65] ↔
    HeaderWritten [65] (some 100)
  := by
  have hget : contentGet [⟨3, [47]⟩] (some [47]) = some 3 := rfl
  exact streams_iff hget (by decide)

/-- When the write of the header fails, the client may get the file alone. -/
theorem not_streamsRight :
  ¬ StreamsRight [⟨3, [47]⟩] (fun _ => [65]) (some [47]) none [65]
  := by
  intro h
  have hget : contentGet [⟨3, [47]⟩] (some [47]) = some 3 := rfl
  obtain ⟨n, hn, -⟩ := headerWritten_of_right hget (by decide) (by decide) h.get
  cases hn

end GetFile.Server
