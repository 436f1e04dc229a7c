import GetFile.Server.Transfer

/-!
# Server: one connection after the other

The loop of `gfserver_serve` with `handler_get` installed serves the connections one after the
other. What is left of a connection when the next one comes is the listening socket, which
`gfs_abort` shuts down, and the saved pointer of `strtok`, which the first call for a request
sets anew. The handler aborts exactly when a `pread` or a `write` fails or is short before the end
of the file (`handlerGet_aborted_iff`). So a connection is served as on a fresh server exactly when
this has happened to no earlier one, and none has ended the server (`isolated_iff`).
-/

namespace GetFile.Server

open CString Transition

/-- A client's connection: the bytes that the reads return and what ends them, and what happens to
the write of the header and to the chunks of a file. -/
structure Conn where
  reads : List (List UInt8)
  ends : NoBytes
  header : Option ℕ
  ios : ℕ → Io

/-- What `gfserver_serve` keeps between two connections: whether the listening socket still
accepts connections, and the saved pointer of `strtok`. -/
structure Gfserver where
  listening : Bool
  next : ℕ

/-- Whether a connection is accepted, and what is sent on it. -/
structure Reply where
  accepted : Bool
  sent : List UInt8
  deriving DecidableEq

/-- The outcomes of as many chunks as a file has bytes, which is enough to send it. -/
def outcomes (items : List Item) (files : ℤ → List UInt8) (path : Option (List UInt8))
    (ios : ℕ → Io) : List Io :=
  match contentGet items path with
  | none => []
  | some fildes => (List.range (files fildes).length).map ios

/-- What the descriptor `-1` does: reads and writes fail. -/
def Conn.refused : Conn where
  reads := []
  ends := .timeout
  header := none
  ios _ := ⟨none, none⟩

/-- One round of the loop of `gfserver_serve`, with the server behind it. There is none when
`handler_get` has passed `NULL` to `strcmp`, or when `process_request` has read outside its
buffer. -/
def serveConnection (items : List Item) (files : ℤ → List UInt8) (gfs : Gfserver) (conn : Conn) :
    Reply × Option Gfserver :=
  -- `accept` on a socket that has been shut down returns `-1`, and the result is not looked at
  let c := if gfs.listening then conn else Conn.refused
  match processRequest (gfcontextCreate gfs.next) c.reads c.ends with
  | none => (⟨gfs.listening, []⟩, none)
  | some (status, ctx) =>
    if status = -1 then
      match handlerGet items files ctx.path c.header (outcomes items files ctx.path c.ios) with
      | none => (⟨gfs.listening, []⟩, none)
      | some h =>
        (⟨gfs.listening, h.sent⟩,
          some { listening := gfs.listening && !h.aborted, next := ctx.next })
    else
      (⟨gfs.listening, (write (gfsSendheader .fileNotFound 0) c.header).1⟩,
        some { gfs with next := ctx.next })

/-- The server after the connections. -/
def serveAll (items : List Item) (files : ℤ → List UInt8) : Gfserver → List Conn → Option Gfserver
  | gfs, [] => some gfs
  | gfs, conn :: conns =>
    (serveConnection items files gfs conn).2.bind fun gfs => serveAll items files gfs conns

/-- What the server replies to a connection after the earlier ones, if it is still there. -/
def replyAfter (items : List Item) (files : ℤ → List UInt8) (gfs : Gfserver) (earlier : List Conn)
    (conn : Conn) : Option Reply :=
  (serveAll items files gfs earlier).map fun gfs => (serveConnection items files gfs conn).1

/-- After the earlier connections every further one is served as if it were the first. -/
def Isolated (items : List Item) (files : ℤ → List UInt8) (gfs : Gfserver)
    (earlier : List Conn) : Prop :=
  ∀ conn, replyAfter items files gfs earlier conn = replyAfter items files gfs [] conn

/-- How many bytes of the file the chunks before the `k`th one have read, when none of them fails. -/
def offset (bufferSize : ℕ) (file : List UInt8) (ios : ℕ → Io) : ℕ → ℕ
  | 0 => 0
  | k + 1 =>
    let n := offset bufferSize file ios k
    n + min ((ios k).read.getD 0) (min bufferSize (file.length - n))

/-- At `offset` the `pread` of a chunk reads something, and its `write` takes all of that. -/
def Whole (bufferSize : ℕ) (file : List UInt8) (offset : ℕ) (io : Io) : Prop :=
  ∃ r w, io.read = some r ∧ 0 < r ∧
    io.write = some w ∧ min r (min bufferSize (file.length - offset)) ≤ w

/-- Up to the end of the file, every `pread` reads something and every `write` takes all of it. -/
def Unfailing (bufferSize : ℕ) (file : List UInt8) (ios : ℕ → Io) : Prop :=
  ∀ k, offset bufferSize file ios k < file.length →
    Whole bufferSize file (offset bufferSize file ios k) (ios k)

/-- A connection that does no harm: its reads stay inside the buffer, and if the handler is called
for them, then with a path (or the table is empty), and none of the reads and writes fails or is
short before the end of the file that the path names. -/
def Harmless (items : List Item) (files : ℤ → List UInt8) (conn : Conn) : Prop :=
  ∃ status path,
    answer (processRequest (gfcontextCreate 0) conn.reads conn.ends) = some (status, path) ∧
    (status = -1 → (path = none → items = []) ∧
      ∀ fildes, contentGet items path = some fildes → 0 ≤ fildes →
        Unfailing 4096 (files fildes) conn.ios)

section

variable {items : List Item} {files : ℤ → List UInt8}

/-! ### The saved pointer of `strtok` -/

/-- In the stage of the scheme the parsers wait, or what they do does not depend on the saved
pointer. -/
theorem parse_next {ctx : Gfcontext} (hsm : ctx.sm = .scheme) (r : ℤ) (next : ℕ) :
  parse r { ctx with next } = parse r ctx ∨
    parse r ctx = (0, ctx) ∧ parse r { ctx with next } = (0, { ctx with next })
  := by
  rw [parse_of_scheme hsm, @parse_of_scheme r { ctx with next } hsm]
  by_cases henough : maxScheme ≤ ctx.rxBytes
  · left
    have heq : parseScheme { ctx with next } = parseScheme ctx := by
      simp only [parseScheme, henough, if_true]
    rw [heq]
  · right
    have hwait : ∀ ctx' : Gfcontext, ctx'.rxBytes = ctx.rxBytes → parseScheme ctx' = (0, ctx') := by
      intro ctx' hrx
      rw [parseScheme, if_neg (by rw [hrx]; exact henough)]
    rw [hwait ctx rfl, hwait { ctx with next } rfl]
    exact ⟨if_pos hsm, if_pos hsm⟩

/-- The saved pointer that earlier requests have left does not count. -/
theorem feed_next {ctx : Gfcontext} (hsm : ctx.sm = .scheme) (r : ℤ) (next : ℕ)
    (ws : List (List UInt8)) (e : NoBytes) :
  answer (feed round (lastRound e) (r, { ctx with next }) ws) =
    answer (feed round (lastRound e) (r, ctx) ws)
  := by
  induction ws generalizing ctx r with
  | nil =>
      simp only [feed_nil, lastRound]
      split
      · rfl
      · cases e with
        | endOfInput => rfl
        | timeout => rfl
  | cons w ws ih =>
      rw [feed_cons, feed_cons]
      simp only [round]
      split
      · rfl
      · have hreceive : ({ ctx with next } : Gfcontext).receive w = { ctx.receive w with next } := rfl
        have hstatus : ({ ctx.receive w with next } : Gfcontext).status = (ctx.receive w).status := rfl
        have hsm' : (ctx.receive w).sm = .scheme := hsm
        rw [hreceive, hstatus]
        split
        · rfl
        · obtain heq | ⟨hwait, hwait'⟩ := parse_next hsm' r next
          · rw [heq]
          · rw [hwait, hwait']
            apply ih hsm'

theorem processRequest_next (next : ℕ) (ws : List (List UInt8)) (e : NoBytes) :
  answer (processRequest (gfcontextCreate next) ws e) =
    answer (processRequest (gfcontextCreate 0) ws e)
  := @feed_next (gfcontextCreate 0) rfl 0 next ws e

/-! ### One connection -/

/-- The connection is accepted if the server still listens. -/
theorem serveConnection_accepted (gfs : Gfserver) (conn : Conn) :
  (serveConnection items files gfs conn).1.accepted = gfs.listening
  := by
  simp only [serveConnection]
  split
  · rfl
  · split
    · split
      · rfl
      · rfl
    · rfl

/-- A server that does not listen does not begin to. -/
theorem serveConnection_refused {gfs gfs' : Gfserver} {conn : Conn} (h : gfs.listening = false)
    (hs : (serveConnection items files gfs conn).2 = some gfs') :
  gfs'.listening = false
  := by
  simp only [serveConnection] at hs
  split at hs
  · cases hs
  · split at hs
    · split at hs
      · cases hs
      · cases hs
        simp [h]
    · cases hs
      exact h

/-- On a server that listens, neither the reply nor whether it listens afterwards depends on the
saved pointer. -/
theorem serveConnection_next {gfs gfs' : Gfserver} (h : gfs.listening = true)
    (h' : gfs'.listening = true) (conn : Conn) :
  (serveConnection items files gfs conn).1 = (serveConnection items files gfs' conn).1 ∧
    (serveConnection items files gfs conn).2.map Gfserver.listening =
      (serveConnection items files gfs' conn).2.map Gfserver.listening
  := by
  have heq := (processRequest_next gfs.next conn.reads conn.ends).trans
    (processRequest_next gfs'.next conn.reads conn.ends).symm
  simp only [serveConnection, h, h', if_true]
  generalize processRequest (gfcontextCreate gfs.next) conn.reads conn.ends = x at heq
  generalize processRequest (gfcontextCreate gfs'.next) conn.reads conn.ends = y at heq
  cases x with
  | none =>
      cases y with
      | none => exact ⟨rfl, rfl⟩
      | some y => cases heq
  | some x =>
      cases y with
      | none => cases heq
      | some y =>
          obtain ⟨status, ctx⟩ := x
          obtain ⟨status', ctx'⟩ := y
          simp only [answer, Option.map_some, Option.some.injEq, Prod.mk.injEq] at heq
          obtain ⟨rfl, hpath⟩ := heq
          dsimp only
          rw [hpath]
          split
          · cases handlerGet items files ctx'.path conn.header
                (outcomes items files ctx'.path conn.ios) with
            | none => exact ⟨rfl, rfl⟩
            | some handled => exact ⟨rfl, rfl⟩
          · exact ⟨rfl, rfl⟩

/-! ### The reads and writes of the handler -/

section

variable {bufferSize k n : ℕ} {file : List UInt8} {ios : ℕ → Io} {t : Transfer} {io : Io}

/-- A chunk that is whole sends the transfer on by the bytes read. -/
theorem Whole.chunk_eq (h : Whole bufferSize file t.bytesTransferred io) (hb : 0 < bufferSize)
    (hlt : t.bytesTransferred < file.length) :
  ∃ sent, chunk bufferSize file t io = .again ⟨sent, t.bytesTransferred +
    min (io.read.getD 0) (min bufferSize (file.length - t.bytesTransferred))⟩
  := by
  obtain ⟨r, w, hread, hr, hwrite, hw⟩ := h
  rw [chunk, if_pos hlt, hread]
  simp only [pread]
  generalize hdata : (file.drop t.bytesTransferred).take (min r bufferSize) = data
  have hlength : data.length = min r (min bufferSize (file.length - t.bytesTransferred)) := by
    rw [← hdata, List.length_take, List.length_drop, Nat.min_assoc]
  have hwritten : write data io.write = (data, (data.length : ℤ)) := by
    rw [hwrite, write, List.take_of_length_le (by omega)]
  rw [if_neg (by omega), hwritten, if_neg (by simp), hlength]
  exact ⟨_, rfl⟩

/-- A chunk that is not whole makes the handler abort. -/
theorem chunk_of_not_whole (h : ¬ Whole bufferSize file t.bytesTransferred io)
    (hlt : t.bytesTransferred < file.length) :
  ∃ sent, chunk bufferSize file t io = .leave ⟨sent, some (-1), true⟩
  := by
  rw [chunk, if_pos hlt]
  cases hread : io.read with
  | none => exact ⟨_, rfl⟩
  | some r =>
      simp only [pread]
      generalize hdata : (file.drop t.bytesTransferred).take (min r bufferSize) = data
      have hlength : data.length = min r (min bufferSize (file.length - t.bytesTransferred)) := by
        rw [← hdata, List.length_take, List.length_drop, Nat.min_assoc]
      split
      · exact ⟨_, rfl⟩
      · rename_i hne
        have hshort : (write data io.write).2 ≠ data.length := by
          cases hwrite : io.write with
          | none =>
              rw [write]
              omega
          | some w =>
              have hw : ¬ min r (min bufferSize (file.length - t.bytesTransferred)) ≤ w := by
                intro hw
                exact h ⟨r, w, hread, by omega, hwrite, hw⟩
              rw [write, List.length_take]
              omega
        rw [if_pos hshort]
        exact ⟨_, rfl⟩

/-- From its `k`th chunk on, a transfer with an outcome for each byte that is missing does not abort
exactly when the rest of the chunks are whole. -/
theorem feed_aborted_iff (hb : 0 < bufferSize)
    (ht : t.bytesTransferred = offset bufferSize file ios k)
    (hn : file.length ≤ offset bufferSize file ios k + n) :
  (feed (chunk bufferSize file) (pause file) t ((List.range' k n).map ios)).aborted = false ↔
    ∀ j, k ≤ j → offset bufferSize file ios j < file.length →
      Whole bufferSize file (offset bufferSize file ios j) (ios j)
  := by
  have hdone : ∀ k, file.length ≤ offset bufferSize file ios k →
      ∀ j, k ≤ j → ¬ offset bufferSize file ios j < file.length := by
    intro k hk j hj
    have hle : offset bufferSize file ios k ≤ offset bufferSize file ios j :=
      monotone_nat_of_le_succ (fun i => Nat.le_add_right _ _) hj
    omega
  induction n generalizing k t with
  | zero =>
      rw [List.range'_zero, List.map_nil, feed_nil, pause, if_neg (by omega)]
      refine iff_of_true rfl ?_
      intro j hj hlt
      exact absurd hlt (hdone k hn j hj)
  | succ n ih =>
      rw [List.range'_succ, List.map_cons]
      by_cases hlt : t.bytesTransferred < file.length
      · by_cases hwhole : Whole bufferSize file t.bytesTransferred (ios k)
        · obtain ⟨sent, hround⟩ := hwhole.chunk_eq hb hlt
          have hnext : offset bufferSize file ios (k + 1) = t.bytesTransferred +
              min ((ios k).read.getD 0) (min bufferSize (file.length - t.bytesTransferred)) := by
            rw [offset, ht]
          have hmore : t.bytesTransferred < offset bufferSize file ios (k + 1) := by
            obtain ⟨r, w, hread, hr, -⟩ := hwhole
            rw [hnext, hread, Option.getD_some]
            omega
          have hrest := ih (k := k + 1) (t := ⟨sent, _⟩) hnext.symm (by omega)
          rw [feed_again hround]
          refine hrest.trans ?_
          constructor
          · intro h j hj
            rcases Nat.eq_or_lt_of_le hj with rfl | hj
            · rw [← ht]
              exact fun _ => hwhole
            · exact h j hj
          · intro h j hj
            exact h j (by omega)
        · obtain ⟨sent, hround⟩ := chunk_of_not_whole hwhole hlt
          rw [feed_leave hround]
          refine iff_of_false Bool.true_eq_false.mp ?_
          intro h
          apply hwhole
          rw [ht] at hlt ⊢
          exact h k le_rfl hlt
      · rw [feed_leave (by rw [chunk, if_neg hlt])]
        refine iff_of_true rfl ?_
        intro j hj hlt'
        exact absurd hlt' (hdone k (by omega) j hj)

/-- A whole transfer does not abort exactly when none of its reads and writes fails. -/
theorem feed_aborted_iff_unfailing (hb : 0 < bufferSize) (start : List UInt8) :
  (feed (chunk bufferSize file) (pause file) ⟨start, 0⟩
      ((List.range file.length).map ios)).aborted = false ↔
    Unfailing bufferSize file ios
  := by
  rw [List.range_eq_range', feed_aborted_iff hb rfl (by simp [offset])]
  constructor
  · intro h k
    exact h k (Nat.zero_le k)
  · intro h k _
    exact h k

end

/-- The handler is there afterwards and has not aborted exactly when it has got a path, or the table
is empty, and no read or write has failed before the end of the file. -/
theorem handlerGet_aborted_iff {path : Option (List UInt8)} {header : Option ℕ} {ios : ℕ → Io} :
  (handlerGet items files path header (outcomes items files path ios)).map Handled.aborted =
      some false ↔
    (path = none → items = []) ∧ ∀ fildes, contentGet items path = some fildes → 0 ≤ fildes →
      Unfailing 4096 (files fildes) ios
  := by
  have hnull : contentGet items path = none ↔ ¬ (path = none → items = []) := by
    cases path with
    | none => simp [contentGet]
    | some p => simp [contentGet]
  rw [handlerGet, handler, outcomes]
  cases hget : contentGet items path with
  | none =>
      have hharm := hnull.mp hget
      simp [hharm]
  | some fildes =>
      have hpath : path = none → items = [] := by
        by_contra hharm
        rw [hnull.mpr hharm] at hget
        cases hget
      rw [and_iff_right hpath, Option.map_some, Option.map_some, Option.some.injEq]
      by_cases hfound : fildes < 0
      · rw [if_pos hfound]
        refine iff_of_true rfl ?_
        rintro _ ⟨⟩ hle
        omega
      · rw [if_neg hfound, feed_aborted_iff_unfailing (by decide)]
        constructor
        · rintro h _ ⟨⟩ _
          exact h
        · intro h
          exact h fildes rfl (by omega)

/-- Only what `process_request` has returned matters. -/
theorem harmless_of_eq {conn : Conn} {status : ℤ} {ctx : Gfcontext}
    (h : processRequest (gfcontextCreate 0) conn.reads conn.ends = some (status, ctx)) :
  Harmless items files conn ↔ (status = -1 → (ctx.path = none → items = []) ∧
    ∀ fildes, contentGet items ctx.path = some fildes → 0 ≤ fildes →
      Unfailing 4096 (files fildes) conn.ios)
  := by
  rw [Harmless, answer, h]
  constructor
  · rintro ⟨status', path, ⟨⟩, hharmless⟩
    exact hharmless
  · intro hharmless
    exact ⟨status, ctx.path, rfl, hharmless⟩

/-- The server still listens after a connection exactly when it did no harm. -/
theorem harmless_iff {gfs : Gfserver} (h : gfs.listening = true) (conn : Conn) :
  Harmless items files conn ↔
    (serveConnection items files gfs conn).2.map Gfserver.listening = some true
  := by
  have hzero : (Gfserver.mk true 0).listening = true := rfl
  rw [(serveConnection_next h hzero conn).2]
  simp only [serveConnection, if_true]
  cases hresult : processRequest (gfcontextCreate 0) conn.reads conn.ends with
  | none => simp [Harmless, answer, hresult]
  | some x =>
      obtain ⟨status, ctx⟩ := x
      rw [harmless_of_eq hresult, ← handlerGet_aborted_iff]
      dsimp only
      by_cases hstatus : status = -1
      · cases handlerGet items files ctx.path conn.header
            (outcomes items files ctx.path conn.ios) with
        | none => simp [hstatus]
        | some handled => simp [hstatus]
      · simp [hstatus]

/-! ### All the connections -/

/-- Neither does it after any number of connections. -/
theorem serveAll_refused {gfs : Gfserver} (h : gfs.listening = false) (conns : List Conn) :
  ∀ gfs', serveAll items files gfs conns = some gfs' → gfs'.listening = false
  := by
  induction conns generalizing gfs with
  | nil =>
      intro gfs' hs
      cases hs
      exact h
  | cons conn conns ih =>
      intro gfs' hs
      obtain ⟨gfs'', hconn, hconns⟩ := Option.bind_eq_some_iff.mp hs
      exact ih (serveConnection_refused h hconn) gfs' hconns

/-- Behind harmless connections the server still listens, and not otherwise. -/
theorem serveAll_listening {gfs : Gfserver} (h : gfs.listening = true) (earlier : List Conn) :
  (∀ conn ∈ earlier, Harmless items files conn) ↔
    (serveAll items files gfs earlier).map Gfserver.listening = some true
  := by
  induction earlier generalizing gfs with
  | nil => simp [serveAll, h]
  | cons conn conns ih =>
      rw [List.forall_mem_cons, harmless_iff h, serveAll]
      cases hs : (serveConnection items files gfs conn).2 with
      | none => simp
      | some gfs' =>
          rw [Option.map_some, Option.bind_some]
          cases hlistening : gfs'.listening with
          | true =>
              rw [← ih hlistening]
              simp
          | false =>
              have hrefused := @serveAll_refused items files _ hlistening conns
              constructor
              · rintro ⟨hfalse, _⟩
                cases hfalse
              · intro htrue
                obtain ⟨gfs'', hall, htrue⟩ := Option.map_eq_some_iff.mp htrue
                rw [hrefused gfs'' hall] at htrue
                cases htrue

/-- Behind harmless connections the reply is that of the fresh server. -/
theorem replyAfter_of_harmless {gfs : Gfserver} (h : gfs.listening = true) {earlier : List Conn}
    (hearlier : ∀ conn ∈ earlier, Harmless items files conn) :
  Isolated items files gfs earlier
  := by
  intro conn
  obtain ⟨gfs', hall, hlistening⟩ :=
    Option.map_eq_some_iff.mp ((serveAll_listening h earlier).mp hearlier)
  rw [replyAfter, replyAfter, hall, serveAll, Option.map_some, Option.map_some,
    (serveConnection_next hlistening h conn).1]

/-- If a further connection is still accepted, no earlier one has done harm. -/
theorem harmless_of_isolated {gfs : Gfserver} (h : gfs.listening = true) {earlier : List Conn}
    (hisolated : Isolated items files gfs earlier) :
  ∀ conn ∈ earlier, Harmless items files conn
  := by
  have hreply := congrArg (Option.map Reply.accepted) (hisolated Conn.refused)
  rw [replyAfter, replyAfter, serveAll, Option.map_map, Option.map_some, Option.map_some,
    serveConnection_accepted, h] at hreply
  obtain ⟨gfs', hall, haccepted⟩ := Option.map_eq_some_iff.mp hreply
  rw [Function.comp_apply, serveConnection_accepted] at haccepted
  rw [serveAll_listening h, hall, Option.map_some, haccepted]

/-- For every content table, every server that listens and all earlier connections: every further
connection is served as on the fresh server if and only if no earlier one has done harm; and
then two runs that differ in the earlier connections serve it in the same way. -/
theorem isolated_iff {gfs : Gfserver} (h : gfs.listening = true) (earlier : List Conn) :
  (Isolated items files gfs earlier ↔ ∀ conn ∈ earlier, Harmless items files conn) ∧
  ∀ gfs' : Gfserver, gfs'.listening = true → ∀ earlier' : List Conn,
    (∀ conn ∈ earlier, Harmless items files conn) →
    (∀ conn ∈ earlier', Harmless items files conn) →
    ∀ conn, replyAfter items files gfs earlier conn = replyAfter items files gfs' earlier' conn
  := by
  constructor
  · exact ⟨harmless_of_isolated h, replyAfter_of_harmless h⟩
  · intro gfs' h' earlier' hearlier hearlier' conn
    rw [replyAfter_of_harmless h hearlier, replyAfter_of_harmless h' hearlier', replyAfter, replyAfter,
      serveAll, serveAll, Option.map_some, Option.map_some, (serveConnection_next h h' conn).1]

end

/-- A connection that asks for the path `/`, and on which the first read from the file fails. -/
def Conn.failing : Conn where
  reads := [ascii "GETFILE GET / \r\n\r\n"]
  ends := .timeout
  header := some 100
  ios _ := ⟨none, none⟩

/-- The failing connection makes the handler abort. -/
theorem serveConnection_failing :
  (serveConnection [⟨3, [47]⟩] (fun _ => [65]) ⟨true, 0⟩ Conn.failing).2.map Gfserver.listening =
    some false
  := by decide

/-- The equivalence behind the failing connection. -/
theorem isolated_iff_failing :
  Isolated [⟨3, [47]⟩] (fun _ => [65]) ⟨true, 0⟩ [Conn.failing] ↔
    ∀ conn ∈ [Conn.failing], Harmless [⟨3, [47]⟩] (fun _ => [65]) conn
  := (isolated_iff rfl [Conn.failing]).1

/-- After the failing connection, no connection is accepted. -/
theorem not_isolated :
  ¬ Isolated [⟨3, [47]⟩] (fun _ => [65]) ⟨true, 0⟩ [Conn.failing]
  := by
  intro h
  have hharmless := harmless_of_isolated rfl h Conn.failing (List.mem_singleton_self _)
  rw [@harmless_iff _ _ ⟨true, 0⟩ rfl, serveConnection_failing] at hharmless
  cases hharmless

end GetFile.Server
