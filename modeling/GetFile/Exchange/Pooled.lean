import GetFile.Exchange.Site
import GetFile.Workers.Serving

/-!
# From the content file to the clients of the multithreaded server

The workers of the multithreaded server answer the requests from the same content file, over
descriptors that they all share. Whatever the schedule is, a client that reads what a worker has
sent ends with a file that the content file has for its path, up to the first failure on its own
connection, or it learns that there is none (`Site.pooled`). The `gfs_sendheader` that the server
is linked with is a parameter, of which its two headers are known (`Handler.Linked`).
-/

namespace GetFile.Exchange

open CString Transition

/-- What happens to the answer to a request on its way: the file is one that the client can receive,
and the header is written in full and comes in the first read. Of the chunks of the file nothing is
said. -/
structure Readable (text : List UInt8) (disk : List UInt8 → List UInt8) (req : Handler.Request)
    (ws : List (List UInt8)) : Prop where
  file : ∀ file, Provides text disk req.path (some file) → 1 ≤ file.length ∧
    file.length < 2 ^ 31 ∧ Server.HeaderWritten file req.header ∧
    ∃ w ∈ ws.head?, (Server.gfsSendheader .ok file.length).length ≤ w.length
  none : Provides text disk req.path none →
    (∃ n, req.header = some n ∧ (ascii "GETFILE FILE_NOT_FOUND\r\n\r\n").length ≤ n) ∧
    ∃ w ∈ ws.head?, (ascii "GETFILE FILE_NOT_FOUND\r\n\r\n").length ≤ w.length

/-- The header without a length says that there is no such file. -/
theorem saysNotFound_linked :
  Client.SaysNotFound (ascii "GETFILE FILE_NOT_FOUND\r\n\r\n")
  := by
  have hbegins := Client.beginsStatus (ascii "FILE_NOT_FOUND\r\n\r\n") (Or.inl rfl)
  exact ⟨⟨ascii "\r\n\r\n", hbegins, by decide +kernel⟩, by decide +kernel, by decide +kernel⟩

section

variable {env : Server.Surroundings} {text : List UInt8} {disk : List UInt8 → List UInt8}
  {items : List Server.Item} {files : ℤ → List UInt8}
  {sendheader : Server.Status → ℕ → List UInt8} {n : ℕ} {calls : List Handler.Request}
  {offsets : Handler.Offsets}
  {p : Pool (Machine (Handler.Shared n Handler.Request) Handler.Offsets)
    (fun t => Caller (Handler.Local n Handler.Request t) Handler.Work Handler.Request
      Server.Handled)}

/-- A client that reads what `handler_perform` sends for a request ends with a beginning of a file that
the content file has for the path, all of it exactly when the handler has not aborted, or it learns
that there is none. -/
theorem Site.answered (h : Site env text disk items files) (hlinked : Handler.Linked sendheader)
    {req : Handler.Request} {handled : Server.Handled}
    (halone : Handler.alone sendheader items files req = some handled)
    {headerCallback : Bool} {next : ℕ} {ws : List (List UInt8)}
    (hreadable : Readable text disk req ws) (hjoins : ws.flatten = handled.sent)
    (hreads : Client.Reads (Client.gfcCreate headerCallback next) ws) :
  (∃ file part, Provides text disk req.path (some file) ∧ part <+: file ∧
      Client.Received file part
        (Client.processResponse (Client.gfcCreate headerCallback next) ws) ∧
      (handled.aborted = false ↔ part = file) ∧
      ((∀ i < file.length, Server.Successful 80 (req.ios i)) → part = file)) ∨
    Provides text disk req.path none ∧
      Client.NotFound (Client.processResponse (Client.gfcCreate headerCallback next) ws)
  := by
  rcases h.contentGet req.path with ⟨file, fildes, hprovides, hget, hfound, rfl⟩ | ⟨hnone, hget⟩
  · left
    rw [Handler.alone_of_found sendheader items files req hlinked.ok hget hfound,
      Server.handlerPerform] at halone
    obtain ⟨hone, hsmall, hwritten, hwhole⟩ := hreadable.file _ hprovides
    obtain ⟨handled', part, hhandler, hsent, hpart, haborted, hsuccess⟩ :=
      handler_cases (by decide : 0 < 80) req.ios hget hfound hwritten
    obtain rfl := Option.some.inj (hhandler.symm.trans halone)
    refine ⟨_, part, hprovides, hpart, ?_, haborted, hsuccess⟩
    rw [hsent, gfsSendheader_ok] at hjoins
    rw [gfsSendheader_ok] at hwhole
    apply Client.received_of_reads hone hsmall hpart hjoins hwhole hreads
  · right
    obtain ⟨⟨k, hheader, hlong⟩, hwhole⟩ := hreadable.none hnone
    refine ⟨hnone, ?_⟩
    rw [← hlinked.fileNotFound] at hlong
    have hsent := Handler.alone_of_not_found sendheader items files req hget (by decide) hheader
      hlong
    rw [halone, Option.map_some, Option.some.injEq, hlinked.fileNotFound] at hsent
    apply Client.notFound_of_reads saysNotFound_linked (hjoins.trans hsent) hwhole hreads

/-- Every answer in a run is that of `handler_perform` alone. -/
theorem alone_of_run {as : Handler.Schedule n}
    (hrun : run (Pool.step (Handler.codeFiles sendheader items files)) as
      (Handler.startFiles sendheader items files calls offsets) = some p)
    {t : Option (Fin n)} {req : Handler.Request} {handled : Server.Handled}
    (hanswered : (req, handled) ∈ (p.threads t).returned) :
  Handler.alone sendheader items files req = some handled
  := by
  have hgoing : Handler.Going sendheader items files calls p :=
    run_invariant (fun a q q' hq hs => hq.step hs) Handler.Going.start hrun
  exact (hgoing.right t).2 (req, handled) hanswered

/-- From the content file through any number of workers, in any schedule of their single calls, to
the client: a client that reads what a worker has sent for its request ends with a beginning of a
file that the content file has for the path. It is all of the file exactly when the worker has not
aborted, and so it is when no chunk has failed on this connection. Or the client learns that the
content file has no file for the path. -/
theorem Site.pooled (h : Site env text disk items files)
    (hlinked : Handler.Linked sendheader) {as : Handler.Schedule n}
    (hrun : run (Pool.step (Handler.codeFiles sendheader items files)) as
      (Handler.startFiles sendheader items files calls offsets) = some p)
    {t : Option (Fin n)} {req : Handler.Request} {handled : Server.Handled}
    (hanswered : (req, handled) ∈ (p.threads t).returned) {headerCallback : Bool} {next : ℕ}
    {ws : List (List UInt8)} (hreadable : Readable text disk req ws)
    (hjoins : ws.flatten = handled.sent)
    (hreads : Client.Reads (Client.gfcCreate headerCallback next) ws) :
  (∃ file part, Provides text disk req.path (some file) ∧ part <+: file ∧
      Client.Received file part
        (Client.processResponse (Client.gfcCreate headerCallback next) ws) ∧
      (handled.aborted = false ↔ part = file) ∧
      ((∀ i < file.length, Server.Successful 80 (req.ios i)) → part = file)) ∨
    Provides text disk req.path none ∧
      Client.NotFound (Client.processResponse (Client.gfcCreate headerCallback next) ws)
  := by
  exact h.answered hlinked (alone_of_run hrun hanswered) hreadable hjoins hreads

/-- The worker answers the request for `/a`. -/
theorem oneReply_runs :
  ∃ q req, run (Pool.step (Handler.codeFiles Handler.linkedSendheader Handler.oneItem Handler.oneFile))
      Handler.oneReply (Handler.startFiles Handler.linkedSendheader Handler.oneItem Handler.oneFile
        [Handler.oneRequest] fun _ => 0) = some q ∧
    (req, ⟨Server.response (ascii "A"), some 1, false⟩) ∈ (q.threads (some 0)).returned ∧
    req.path = ascii "/a" ∧ req.header = some 80
  := by
  have hrun : (run (Pool.step (Handler.codeFiles Handler.linkedSendheader Handler.oneItem
      Handler.oneFile)) Handler.oneReply (Handler.startFiles Handler.linkedSendheader Handler.oneItem
        Handler.oneFile [Handler.oneRequest] fun _ => 0)).map (fun q =>
          (q.threads (some 0)).returned.map fun x => (x.1.path, x.1.header, x.2)) =
      some [(ascii "/a", some 80, ⟨Server.response (ascii "A"), some 1, false⟩)] := by
    decide +kernel
  obtain ⟨q, h, hreturned⟩ := Option.map_eq_some_iff.mp hrun
  obtain ⟨⟨req, handled⟩, hanswered, heq⟩ := List.mem_map.mp (hreturned ▸ List.mem_singleton_self _)
  simp only [Prod.mk.injEq] at heq
  obtain ⟨hpath, hheader, rfl⟩ := heq
  exact ⟨q, req, h, hanswered, hpath, hheader⟩

theorem eq_of_provides_one {key file : List UInt8}
    (h : Provides (ascii "/a f\n") (fun _ => ascii "A") key (some file)) :
  file = ascii "A"
  := by
  obtain ⟨_, _, _, _, rfl⟩ := h
  rfl

theorem not_provides_none : ¬ Provides (ascii "/a f\n") (fun _ => ascii "A") (ascii "/a") none
  := by
  intro hnone
  have hanswer := provides_one hnone
  rw [if_pos rfl] at hanswer
  cases hanswer

/-- The answer for `/a` can be read at once. -/
theorem readable_one {req : Handler.Request} (hpath : req.path = ascii "/a")
    (hheader : req.header = some 80) :
  Readable (ascii "/a f\n") (fun _ => ascii "A") req [Server.response (ascii "A")]
  := by
  constructor
  · intro file hprovides
    rw [eq_of_provides_one hprovides]
    refine ⟨by decide, by decide, ⟨80, hheader, by decide⟩, _, rfl, by decide⟩
  · intro hnone
    rw [hpath] at hnone
    exact absurd hnone not_provides_none

theorem reads_one :
  Client.Reads (Client.gfcCreate false 0) [Server.response (ascii "A")]
  := Client.reads_create (by decide) (by decide) false 0

/-- A client that reads the answer at once ends with the file that the content file has for `/a`. -/
theorem pooled_one :
  Client.Received (ascii "A") (ascii "A")
    (Client.processResponse (Client.gfcCreate false 0) [Server.response (ascii "A")])
  := by
  obtain ⟨q, req, h, hanswered, hpath, hheader⟩ := oneReply_runs
  rcases site_one.pooled Handler.linked_linkedSendheader h hanswered (readable_one hpath hheader)
      List.flatten_singleton reads_one with ⟨file, part, hprovides, -, hreceived, haborted, -⟩ | ⟨hnone, -⟩
  · obtain rfl := eq_of_provides_one hprovides
    obtain rfl := haborted.mp rfl
    exact hreceived
  · rw [hpath] at hnone
    exact absurd hnone not_provides_none

end

end GetFile.Exchange
