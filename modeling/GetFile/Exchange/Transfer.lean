import GetFile.Client.Segmentation
import GetFile.Exchange.Header
import GetFile.Exchange.Request
import GetFile.Server.Isolation
import GetFile.Server.Lookup

/-!
# The transfer of a file from the server to the client

`gfc_perform` writes the request, one round of `gfserver_serve` with `handler_get` answers it,
and `process_response` reads the reply. `Joined` says how the two programs are connected: the
reads of the server bring what the client has written, and the reads of the client bring what the
server has sent. With the request in place and the header in the first read, the client ends with
the part of the file that has been sent, and with success exactly when this is the file
(`Joined.transfer`).
-/

namespace GetFile.Client

open CString Transition

/-- What the client ends with when it has been sent the bytes `part` of the file: they have been
handed over, and `gfc_perform` returns `0` exactly when they are the file. -/
structure Received (file part : List UInt8) (result : Option (ℤ × Gfcrequest)) : Prop where
  ends : ∃ r g, result = some (r, g) ∧ g.status = .ok ∧ g.fileLength = file.length ∧
    g.written = part ∧ (r = 0 ∧ part = file ∨ r = -1 ∧ part ≠ file)

/-- The client has been told that there is no such file, and nothing has been handed over. -/
def NotFound (result : Option (ℤ × Gfcrequest)) : Prop :=
  ∃ g, result = some (0, g) ∧ g.status = .fileNotFound ∧ g.written = []

section

variable {ws : List (List UInt8)} {headerCallback : Bool} {next : ℕ}

/-- When the first of the byte strings is long enough, it brings the beginning of their
concatenation. -/
theorem exists_head_of_flatten {head rest : List UInt8} (hjoins : ws.flatten = head ++ rest)
    (hlong : ∃ w ∈ ws.head?, head.length ≤ w.length) :
  ∃ first ws', ws = (head ++ first) :: ws' ∧ first ++ ws'.flatten = rest
  := by
  obtain ⟨w, hw, hlength⟩ := hlong
  cases ws with
  | nil => cases hw
  | cons v ws' =>
      cases hw
      rw [List.flatten_cons] at hjoins
      have hprefix : head <+: w := by
        have hwhole := List.prefix_append head rest
        rw [← hjoins] at hwhole
        apply List.prefix_of_prefix_length_le hwhole (List.prefix_append w ws'.flatten) hlength
      obtain ⟨first, rfl⟩ := hprefix
      rw [List.append_assoc] at hjoins
      exact ⟨first, ws', rfl, List.append_cancel_left hjoins⟩

/-- The client reads the header of a file and then some beginning of the file, with the header in
the first read. -/
theorem received_of_reads {file part : List UInt8} (hone : 1 ≤ file.length)
    (hsmall : file.length < 2 ^ 31) (hpart : part <+: file)
    (hjoins : ws.flatten = okHeader (decimal file.length) 0 ++ part) (hwhole : Whole file ws)
    (hreads : Reads (gfcCreate headerCallback next) ws) :
  Received file part (processResponse (gfcCreate headerCallback next) ws)
  := by
  obtain ⟨first, ws, rfl, hrest⟩ := exists_head_of_flatten hjoins hwhole
  have hle := hpart.length_le
  have hfirst : first.length ≤ file.length := by
    have hlength := congrArg List.length hrest
    rw [List.length_append] at hlength
    omega
  obtain ⟨g, hbehind, hlater, hrun⟩ := processResponse_header (announces_decimal hsmall) hreads
  have hdigits := length_header_le hsmall
  have henters := hbehind.entersContent (by rw [length_okHeader, rdBufSize_eq]; omega) hsmall hone
    hfirst
  obtain ⟨-, r, g', houtcome, hstatus, hend⟩ := henters.pending.run hlater
  have hfile := (content_run hbehind.sm (by rw [hbehind.contentPt, hbehind.rxBytes]; omega) hlater
    houtcome).2.1
  have hnone : g.written = [] := by
    rw [Gfcrequest.written, hbehind.writes]
    rfl
  rw [hnone, List.nil_append, hbehind.waiting, hbehind.fileLength, hrest] at hend
  rw [hrun, houtcome]
  refine ⟨r, g', rfl, hstatus.trans hbehind.status, hfile.trans hbehind.fileLength, ?_, ?_⟩
  · rw [hend.written, List.take_of_length_le hle]
  · rcases hend.result with ⟨hr, hlong⟩ | ⟨hr, hshort⟩
    · left
      exact ⟨hr, hpart.eq_of_length_le hlong⟩
    · right
      refine ⟨hr, ?_⟩
      rintro rfl
      omega

/-- The header `s` says that there is no such file, in its status or in the beginning of it. -/
structure SaysNotFound (s : List UInt8) : Prop where
  begins : ∃ word, BeginsStatus (ascii "FILE_NOT_FOUND" ++ word) s ∧
    ∀ c ∈ ascii "FILE_NOT_FOUND" ++ word, c ≠ space ∧ c ≠ 0
  long : 23 ≤ s.length
  short : s.length < rdBufSize

/-- The client reads a header that says that there is no such file. -/
theorem notFound_of_reads {s : List UInt8} (hs : SaysNotFound s) (hjoins : ws.flatten = s)
    (hlong : ∃ w ∈ ws.head?, s.length ≤ w.length)
    (hreads : Reads (gfcCreate headerCallback next) ws) :
  NotFound (processResponse (gfcCreate headerCallback next) ws)
  := by
  rw [← List.append_nil s] at hjoins
  obtain ⟨first, ws, rfl, hrest⟩ := exists_head_of_flatten hjoins hlong
  obtain ⟨rfl, -⟩ := List.append_eq_nil_iff.mp hrest
  have hhead := head_create headerCallback next
  obtain ⟨hne, hlen⟩ := hhead.fits hreads.head
  obtain ⟨hrequest, hwindow⟩ := window_of_header hhead.sm hhead.early.contentPt
  have houtcome := hhead.outcome hne hlen
  rw [processResponse_create, feed_cons, round_eq hwindow (by omega)]
  rw [List.append_nil] at hlen houtcome ⊢
  obtain ⟨word, hbegins, hword⟩ := hs.begins
  have hshort := hs.short
  have hin : 8 + (ascii "FILE_NOT_FOUND" ++ word).length ≤ s.length := hbegins.length_le
  obtain ⟨g, hread, hparse⟩ := parse_failure hbegins (by simp [ascii]) (by simp [ascii]) hword
    ((by decide : 12 ≤ 23).trans hs.long) hlen (by omega) headerCallback next
  have hfailure := hread.of_append.fileNotFound hs.long hlen
  have hheader := hparse .notFound rfl hfailure
  have hwrites : g.writes = [] := by
    rw [hheader] at houtcome
    cases houtcome with
    | wait head kept => cases head.sm
    | failed sm writes => apply writes
    | enter entered => cases entered.sm
  rw [parse_of_parseHeader hheader rfl, parse_of_notFound rfl, finish_done, Round.feed_leave]
  exact ⟨_, rfl, rfl, by rw [Gfcrequest.written, hwrites]; rfl⟩

/-- The header of the server says so. -/
theorem saysNotFound_gfsSendheader :
  SaysNotFound (Server.gfsSendheader .fileNotFound 0)
  := by
  have hbegins := Exchange.beginsStatus_gfsSendheader .fileNotFound 0 []
  rw [List.append_nil] at hbegins
  exact ⟨⟨[], hbegins, Exchange.gfsStrstatus_word .fileNotFound⟩, by decide, by decide⟩

end

end GetFile.Client

namespace GetFile.Exchange

open CString Transition

/-! ### The two programs connected -/

/-- What happens on the way between the two programs: how the server's reads cut the request and
what ends them, what happens to the write of the header and to the chunks of the file, and how the
client's reads cut the reply. -/
structure Wire where
  requestReads : List (List UInt8)
  ends : Server.NoBytes
  header : Option ℕ
  ios : ℕ → Server.Io
  responseReads : List (List UInt8)

/-- The connection as the server meets it. -/
def Wire.conn (wire : Wire) : Server.Conn where
  reads := wire.requestReads
  ends := wire.ends
  header := wire.header
  ios := wire.ios

/-- What `gfc_perform` returns for a path, with the request behind it: it writes the request, and
then it reads the response. There is no result when the request does not fit into the buffer of
`send_request`. -/
def gfcPerform (path : List UInt8) (next : ℕ) (wire : Wire) : Option (ℤ × Client.Gfcrequest) :=
  (Client.sendRequest (Client.gfcSetPath path)).bind fun _ =>
    Client.processResponse (Client.gfcCreate false next) wire.responseReads

/-- The client asks for a path on a connection that the server serves: the server reads what the
client has written, and the client reads what the server has sent. -/
structure Joined (items : List Server.Item) (files : ℤ → List UInt8) (gfs : Server.Gfserver)
    (path : List UInt8) (next : ℕ) (wire : Wire) : Prop where
  request : Client.sendRequest (Client.gfcSetPath path) = some wire.requestReads.flatten
  requestReads : Server.Reads (Server.gfcontextCreate gfs.next) wire.requestReads
  reply : (Server.serveConnection items files gfs wire.conn).1 = ⟨true, wire.responseReads.flatten⟩
  responseReads : Client.Reads (Client.gfcCreate false next) wire.responseReads

/-- The request is read in place, the header of the reply is written in full, and the first read
of the client brings all of it. -/
structure Wire.Untorn (wire : Wire) (path : List UInt8) (status : Server.Status) (len : ℕ) :
    Prop where
  inPlace : Server.InPlace path 0 wire.requestReads
  written : ∃ n, wire.header = some n ∧ (Server.gfsSendheader status len).length ≤ n
  header : ∃ w ∈ wire.responseReads.head?, (Server.gfsSendheader status len).length ≤ w.length

section

variable {items : List Server.Item} {files : ℤ → List UInt8} {gfs : Server.Gfserver}
  {path : List UInt8} {next : ℕ} {wire : Wire}

/-- The client writes the request for the path. -/
theorem sendRequest_path (hp : Server.IsPath path) :
  Client.sendRequest (Client.gfcSetPath path) = some (Server.request path)
  := by
  have hzero : ∀ c ∈ path, c ≠ 0 := fun c hc => (hp.word_byte hc).2
  have htext := Client.requestText_eq hzero
  have hlength := hp.length_le
  rw [← htext]
  apply Client.sendRequest_eq
  · rw [htext, Server.length_request, Client.bufSize_eq]
    omega
  · rw [htext]
    apply Server.request_ne_zero hzero

/-- On a server that listens, the handler answers for the path of a request that is read in
place. -/
theorem serveConnection_request (conn : Server.Conn) (hp : Server.IsPath path)
    (hlisten : gfs.listening = true) (hcut : Server.CutInto gfs.next path conn.reads)
    (hplace : Server.InPlace path 0 conn.reads) {handled : Server.Handled}
    (hhandler : Server.handlerGet items files (some path) conn.header
      (Server.outcomes items files (some path) conn.ios) = some handled) :
  ∃ saved, Server.serveConnection items files gfs conn =
    (⟨true, handled.sent⟩, some ⟨!handled.aborted, saved⟩)
  := by
  have hanswer := (hcut.answer_iff hp conn.ends).mpr hplace
  rw [Server.answer, Option.map_eq_some_iff] at hanswer
  obtain ⟨⟨status, ctx⟩, hprocess, hctx⟩ := hanswer
  obtain ⟨rfl, hpath⟩ := Prod.mk.inj hctx
  refine ⟨ctx.next, ?_⟩
  simp only [Server.serveConnection, hlisten, if_true, hprocess]
  dsimp only at hpath
  rw [hpath, hhandler]
  rfl

/-- What the server reads is the request. -/
theorem Joined.cutInto (h : Joined items files gfs path next wire) (hp : Server.IsPath path) :
  Server.CutInto gfs.next path wire.requestReads
  := by
  have hrequest := h.request
  rw [sendRequest_path hp] at hrequest
  exact ⟨(Option.some.inj hrequest).symm, h.requestReads⟩

/-- The header that the client expects is the one that the server writes. -/
theorem Wire.Untorn.whole {file : List UInt8} (h : wire.Untorn path .ok file.length) :
  Client.Whole file wire.responseReads
  := by
  rw [Client.Whole, ← gfsSendheader_ok]
  apply h.header

/-- What the client has received when the handler ends or waits behind the bytes sent. -/
theorem Joined.received (h : Joined items files gfs path next wire) (hp : Server.IsPath path)
    {file part : List UInt8} (huntorn : wire.Untorn path .ok file.length)
    (hone : 1 ≤ file.length) (hsmall : file.length < 2 ^ 31) (hpart : part <+: file)
    (hsent : (Server.serveConnection items files gfs wire.conn).1.sent =
      Server.gfsSendheader .ok file.length ++ part) :
  Client.Received file part (gfcPerform path next wire)
  := by
  rw [h.reply, gfsSendheader_ok] at hsent
  rw [gfcPerform, sendRequest_path hp, Option.bind_some]
  apply Client.received_of_reads hone hsmall hpart hsent huntorn.whole h.responseReads

/-- What a handler does with a file that it finds, behind a header that is written in full: it sends a
beginning of the file, and it aborts exactly when this is not the file. -/
theorem handler_cases {bufferSize : ℕ} (hb : 0 < bufferSize) {fildes : ℤ} {header : Option ℕ}
    (ios : ℕ → Server.Io) (hget : Server.contentGet items (some path) = some fildes)
    (hfound : 0 ≤ fildes) (hwritten : Server.HeaderWritten (files fildes) header) :
  ∃ handled part, Server.handler bufferSize items files (some path) header
      (Server.outcomes items files (some path) ios) = some handled ∧
    handled.sent = Server.gfsSendheader .ok (files fildes).length ++ part ∧
    part <+: files fildes ∧ (handled.aborted = false ↔ part = files fildes) ∧
    ((∀ i < (files fildes).length, Server.Successful bufferSize (ios i)) → part = files fildes)
  := by
  have houtcomes : Server.outcomes items files (some path) ios =
      (List.range (files fildes).length).map ios := by
    simp only [Server.outcomes, hget]
  have hhandler := @Server.handler_eq items files (some path) fildes bufferSize hget hfound header
    ((List.range (files fildes).length).map ios)
  rw [hwritten.write_eq] at hhandler
  have hstart := Server.sending_start (Server.gfsSendheader .ok (files fildes).length)
    (files fildes)
  have hended := hstart.ended bufferSize ((List.range (files fildes).length).map ios)
  have hreturns := @Server.feed_returns (files fildes)
    ⟨Server.gfsSendheader .ok (files fildes).length, 0⟩
    ((List.range (files fildes).length).map ios) bufferSize (by simp)
  have hall := @Server.Sending.all _ _ _ _ ((List.range (files fildes).length).map ios) hstart hb
  rw [houtcomes, hhandler]
  generalize feed (Server.chunk bufferSize (files fildes)) (Server.pause (files fildes)) _ _ =
    handled at hended hreturns hall
  have hshort : ∀ n < (files fildes).length, (files fildes).take n ≠ files fildes := by
    intro n hn heq
    have hlength := congrArg List.length heq
    rw [List.length_take] at hlength
    omega
  refine ⟨handled, handled.sent.drop (Server.gfsSendheader .ok (files fildes).length).length, rfl,
    ?_⟩
  cases hended with
  | waits n lt => exact absurd rfl hreturns
  | done => simp
  | aborted n lt =>
      simp only [List.drop_left, true_and]
      refine ⟨List.take_prefix n _, ?_, ?_⟩
      · simpa using hshort n lt
      · intro hsuccess
        have heq := hall (by simpa using hsuccess) (by simp)
        exact absurd (congrArg Server.Handled.aborted heq) (by simp)

/-- With the request in place and the header in the first read of the client, whatever happens to
the chunks of the file: the client ends with a beginning of the file, with success exactly when this
is the file, and the server goes on listening exactly then. Without failures it is the file. -/
theorem Joined.transfer (h : Joined items files gfs path next wire) (hp : Server.IsPath path)
    (hlisten : gfs.listening = true) {fildes : ℤ}
    (hget : Server.contentGet items (some path) = some fildes) (hfound : 0 ≤ fildes)
    (huntorn : wire.Untorn path .ok (files fildes).length) (hone : 1 ≤ (files fildes).length)
    (hsmall : (files fildes).length < 2 ^ 31) :
  ∃ part saved listening, part <+: files fildes ∧
    (Server.serveConnection items files gfs wire.conn).2 = some ⟨listening, saved⟩ ∧
    Client.Received (files fildes) part (gfcPerform path next wire) ∧
    (listening = true ↔ part = files fildes) ∧
    ((∀ i < (files fildes).length, Server.Successful 4096 (wire.ios i)) → part = files fildes)
  := by
  obtain ⟨handled, part, hhandler, hsent, hpart, haborted, hsuccess⟩ :=
    handler_cases (by decide : 0 < 4096) wire.ios hget hfound huntorn.written
  obtain ⟨saved, hserve⟩ := serveConnection_request wire.conn hp hlisten
    (h.cutInto hp) huntorn.inPlace hhandler
  refine ⟨part, saved, !handled.aborted, hpart, by rw [hserve], ?_, by simpa using haborted,
    hsuccess⟩
  apply h.received hp huntorn hone hsmall hpart
  rw [hserve]
  exact hsent

/-- With the request in place and the header in the first read of the client: for a path that is not
in the table, the client is told so, and the server goes on listening. -/
theorem Joined.absent (h : Joined items files gfs path next wire) (hp : Server.IsPath path)
    (hlisten : gfs.listening = true) (hget : Server.contentGet items (some path) = some (-1))
    (huntorn : wire.Untorn path .fileNotFound 0) :
  (∃ saved, (Server.serveConnection items files gfs wire.conn).2 = some ⟨true, saved⟩) ∧
    Client.NotFound (gfcPerform path next wire)
  := by
  obtain ⟨n, hheader, hlong⟩ := huntorn.written
  have hhandler : Server.handlerGet items files (some path) wire.header
      (Server.outcomes items files (some path) wire.ios) =
        some ⟨Server.gfsSendheader .fileNotFound 0,
          some (Server.gfsSendheader .fileNotFound 0).length, false⟩ := by
    rw [Server.handlerGet, Server.handler, hget, hheader]
    simp only [Server.write, List.take_of_length_le hlong]
    rfl
  obtain ⟨saved, hserve⟩ := serveConnection_request wire.conn hp hlisten
    (h.cutInto hp) huntorn.inPlace hhandler
  constructor
  · rw [hserve]
    exact ⟨saved, rfl⟩
  · have hreply := h.reply
    rw [hserve] at hreply
    have hjoins : wire.responseReads.flatten = Server.gfsSendheader .fileNotFound 0 :=
      (congrArg Server.Reply.sent hreply).symm
    rw [gfcPerform, sendRequest_path hp, Option.bind_some]
    apply Client.notFound_of_reads Client.saysNotFound_gfsSendheader hjoins huntorn.header
      h.responseReads

/-! ### Exchanges in one piece -/

/-- The request is read at once, nothing fails, and the reply is read at once. -/
def Wire.whole (path reply : List UInt8) : Wire where
  requestReads := [Server.request path]
  ends := .timeout
  header := some reply.length
  ios _ := ⟨some 4096, some 4096⟩
  responseReads := [reply]

end

end GetFile.Exchange
