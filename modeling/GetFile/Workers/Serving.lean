import GetFile.Server.Isolation
import GetFile.Transition.Calls
import GetFile.Workers.Handler

/-!
# The files of the multithreaded server

The workers of the multithreaded server with the calls that they make in `handler_perform`:
`content_get` and `lseek` move the offset of a descriptor that all workers share, and `pread` reads
from a place of its own. So whatever the other workers do with the descriptor, each request is
answered as `handler_perform` alone answers it (`replies_alone`). The `gfs_sendheader` that the
server is linked with is a parameter, and the operations of the request queue are single steps.
-/

namespace GetFile.Handler

open Transition

variable {n : ℕ}

/-! ### The calls of a worker -/

/-- What the server has of a request, and what happens on its connection: to the write of the header
and to the chunks of the file. -/
structure Request where
  path : List UInt8
  header : Option ℕ
  ios : ℕ → Server.Io

/-- The next call of a worker in `handler_perform`, with its local variables. The call of
`gfs_sendheader` for a path without a file is made at `notFound`. -/
inductive Work where
  | contentGet
  | notFound
  | lseek (fildes : ℤ)
  | sendheader (fildes : ℤ) (fileLen : ℕ)
  | pread (fildes : ℤ) (fileLen : ℕ) (t : Server.Transfer) (chunks : ℕ)
  | send (fildes : ℤ) (fileLen : ℕ) (t : Server.Transfer) (chunks : ℕ) (data : List UInt8)
  | returned (h : Server.Handled)

/-- The offsets of the descriptors. -/
abbrev Offsets := ℤ → ℕ

section

variable (sendheader : Server.Status → ℕ → List UInt8) (items : List Server.Item)
  (files : ℤ → List UInt8)

/-- One step of `handler_perform`. There is no result when `content_get` has none. -/
def perform (req : Request) (offsets : Offsets) : Work → Option (Offsets × Work)
  | .contentGet =>
    (Server.contentGet items (some req.path)).map fun fildes =>
      if fildes < 0 then (offsets, .notFound)
      else (Function.update offsets fildes 0, .lseek fildes)
  | .notFound =>
    let w := Server.write (sendheader .fileNotFound 0) req.header
    some (offsets, .returned ⟨w.1, some w.2, false⟩)
  | .lseek fildes =>
    let fileLen := (files fildes).length
    some (Function.update offsets fildes fileLen, .sendheader fildes fileLen)
  | .sendheader fildes fileLen =>
    let w := Server.write (sendheader .ok fileLen) req.header
    some (offsets, .pread fildes fileLen ⟨w.1, 0⟩ 0)
  | .pread fildes fileLen t chunks =>
    if t.bytesTransferred < fileLen then
      match Server.pread (files fildes) 80 t.bytesTransferred (req.ios chunks).read with
      | none => some (offsets, .returned ⟨t.sent, some (-1), true⟩)
      | some data =>
        if data.length = 0 then some (offsets, .returned ⟨t.sent, some (-1), true⟩)
        else some (offsets, .send fildes fileLen t chunks data)
    else some (offsets, .returned ⟨t.sent, some t.bytesTransferred, false⟩)
  | .send fildes fileLen t chunks data =>
    let w := Server.write data (req.ios chunks).write
    if w.2 ≠ data.length then some (offsets, .returned ⟨t.sent ++ w.1, some (-1), true⟩)
    else some (offsets, .pread fildes fileLen
      ⟨t.sent ++ w.1, t.bytesTransferred + data.length⟩ (chunks + 1))
  | .returned _ => none

/-- The request with which a thread has called `handler_perform`. -/
def request : ∀ t : Option (Fin n), Local n Request t → Option Request
  | none => fun _ => none
  | some _ => fun w =>
    match w.pc with
    | .perform req => some req
    | _ => none

/-- The calls of `handler_perform`, which end with the process. -/
def performCalls :
    Calls (fun _ : Option (Fin n) => Bool) (Shared n Request) (Local n Request) Request Offsets
      Work Server.Handled where
  call := request
  first := .contentGet
  step _ _ s req offsets work :=
    if s.exited then none else perform sendheader items files req offsets work
  result
    | .returned h => some h
    | _ => none
  running _ := true

/-- The code of the boss and of the workers, where `handler_perform` takes many steps. -/
def codeFiles :
    Code (fun _ : Option (Fin n) => Bool) (Machine (Shared n Request) Offsets)
      (fun t => Caller (Local n Request t) Work Request Server.Handled) :=
  (performCalls sendheader items files).code code

/-- The server when `main` calls `handler_init`, before the calls of `handler_get`. -/
def startFiles (calls : List Request) (offsets : Offsets) :
    Pool (Machine (Shared n Request) Offsets)
      (fun t : Option (Fin n) => Caller (Local n Request t) Work Request Server.Handled) :=
  (performCalls sendheader items files).start (start calls) offsets

end

/-! ### One call of `handler_perform` -/

section

variable (sendheader : Server.Status → ℕ → List UInt8) (items : List Server.Item)
  (files : ℤ → List UInt8) (req : Request)

/-- What `handler_perform` alone answers. -/
def alone : Option Server.Handled :=
  (Server.contentGet items (some req.path)).map fun fildes =>
    if fildes < 0 then
      let w := Server.write (sendheader .fileNotFound 0) req.header
      ⟨w.1, some w.2, false⟩
    else
      feed (Server.chunk 80 (files fildes)) (Server.pause (files fildes))
        ⟨(Server.write (sendheader .ok (files fildes).length) req.header).1, 0⟩
        ((List.range (files fildes).length).map req.ios)

/-- What is sent for a file with the header of the plain server is what the `handler_perform` on it
sends. -/
theorem alone_of_found {fildes : ℤ}
    (hok : ∀ fileLen, sendheader .ok fileLen = Server.gfsSendheader .ok fileLen)
    (hget : Server.contentGet items (some req.path) = some fildes) (hfound : 0 ≤ fildes) :
  alone sendheader items files req =
    Server.handlerPerform items files (some req.path) req.header
      (Server.outcomes items files (some req.path) req.ios)
  := by
  rw [alone, Server.handlerPerform, Server.handler, Server.outcomes, hget, Option.map_some,
    Option.map_some, if_neg (by omega), if_neg (by omega), hok]

/-- What is sent for a path without a file. -/
theorem alone_of_not_found {fildes : ℤ} {k : ℕ}
    (hget : Server.contentGet items (some req.path) = some fildes) (hfound : fildes < 0)
    (hheader : req.header = some k) (hk : (sendheader .fileNotFound 0).length ≤ k) :
  (alone sendheader items files req).map Server.Handled.sent = some (sendheader .fileNotFound 0)
  := by
  rw [alone, hget, Option.map_some, Option.map_some, if_pos hfound, hheader]
  simp only [Server.write, List.take_of_length_le hk]

/-- `handler_perform` alone comes to the transfer `t` after `k` chunks of the file. -/
structure Reaches (fildes : ℤ) (t : Server.Transfer) (k : ℕ) : Prop where
  answer : alone sendheader items files req =
    some (feed (Server.chunk 80 (files fildes)) (Server.pause (files fildes)) t
      (((List.range (files fildes).length).map req.ios).drop k))
  le : k ≤ t.bytesTransferred

/-- The local variables of `handler_perform` are as they are when it runs alone. -/
def Work.Valid : Work → Prop
  | .contentGet => True
  | .notFound =>
    ∃ fildes, Server.contentGet items (some req.path) = some fildes ∧ fildes < 0
  | .lseek fildes => Server.contentGet items (some req.path) = some fildes ∧ 0 ≤ fildes
  | .sendheader fildes fileLen =>
    Server.contentGet items (some req.path) = some fildes ∧ 0 ≤ fildes ∧
      fileLen = (files fildes).length
  | .pread fildes fileLen t chunks =>
    fileLen = (files fildes).length ∧ Reaches sendheader items files req fildes t chunks
  | .send fildes fileLen t chunks data =>
    fileLen = (files fildes).length ∧ Reaches sendheader items files req fildes t chunks ∧
      t.bytesTransferred < (files fildes).length ∧ data.length ≠ 0 ∧
      Server.pread (files fildes) 80 t.bytesTransferred (req.ios chunks).read = some data
  | .returned h => alone sendheader items files req = some h

end

section

variable {sendheader : Server.Status → ℕ → List UInt8} {items : List Server.Item}
  {files : ℤ → List UInt8} {req : Request} {offsets offsets' : Offsets} {work work' : Work}
  {fildes : ℤ} {t : Server.Transfer} {k : ℕ}

/-- The loop begins with the header. -/
theorem Reaches.start (hget : Server.contentGet items (some req.path) = some fildes)
    (hfound : 0 ≤ fildes) :
  Reaches sendheader items files req fildes
    ⟨(Server.write (sendheader .ok (files fildes).length) req.header).1, 0⟩ 0
  := by
  refine ⟨?_, le_rfl⟩
  rw [alone, hget, Option.map_some, if_neg (by omega), List.drop_zero]

/-- With the whole file sent the handler returns. -/
theorem Reaches.done (h : Reaches sendheader items files req fildes t k)
    (hall : ¬ t.bytesTransferred < (files fildes).length) :
  alone sendheader items files req = some ⟨t.sent, some t.bytesTransferred, false⟩
  := by
  rw [h.answer]
  generalize ((List.range (files fildes).length).map req.ios).drop k = ios
  cases ios with
  | nil => rw [feed_nil, Server.pause, if_neg hall]
  | cons io ios =>
      rw [feed_cons, Server.chunk, if_neg hall]
      rfl

/-- With a part of the file missing the next chunk is read and sent. -/
theorem Reaches.next (h : Reaches sendheader items files req fildes t k)
    (hlt : t.bytesTransferred < (files fildes).length) :
  alone sendheader items files req =
    some ((Server.chunk 80 (files fildes) t (req.ios k)).feed (Server.chunk 80 (files fildes))
      (Server.pause (files fildes))
      (((List.range (files fildes).length).map req.ios).drop (k + 1)))
  := by
  have hk : k < ((List.range (files fildes).length).map req.ios).length := by
    rw [List.length_map, List.length_range]
    exact h.le.trans_lt hlt
  have hio : ((List.range (files fildes).length).map req.ios)[k] = req.ios k := by
    rw [List.getElem_map, List.getElem_range]
  rw [h.answer, List.drop_eq_getElem_cons hk, feed_cons, hio]

/-- Each step of `handler_perform` is the one that it takes alone, whatever the offsets are. -/
theorem Work.Valid.step (h : work.Valid sendheader items files req)
    (hs : perform sendheader items files req offsets work = some (offsets', work')) :
  work'.Valid sendheader items files req
  := by
  cases work with
  | contentGet =>
      rw [perform] at hs
      obtain ⟨fildes, hget, heq⟩ := Option.map_eq_some_iff.mp hs
      split at heq
      · cases heq
        exact ⟨fildes, hget, by assumption⟩
      · cases heq
        exact ⟨hget, by omega⟩
  | notFound =>
      obtain ⟨fildes, hget, hnone⟩ := h
      cases hs
      rw [Work.Valid, alone, hget, Option.map_some, if_pos hnone]
  | lseek fildes =>
      obtain ⟨hget, hfound⟩ := h
      cases hs
      exact ⟨hget, hfound, rfl⟩
  | sendheader fildes fileLen =>
      obtain ⟨hget, hfound, rfl⟩ := h
      cases hs
      exact ⟨rfl, Reaches.start hget hfound⟩
  | pread fildes fileLen t chunks =>
      obtain ⟨rfl, hreaches⟩ := h
      rw [perform] at hs
      by_cases hlt : t.bytesTransferred < (files fildes).length
      · rw [if_pos hlt] at hs
        have hnext := hreaches.next hlt
        rw [Server.chunk, if_pos hlt] at hnext
        cases hread : Server.pread (files fildes) 80 t.bytesTransferred (req.ios chunks).read with
        | none =>
            rw [hread] at hs hnext
            cases hs
            exact hnext
        | some data =>
            rw [hread] at hs hnext
            dsimp only at hs hnext
            by_cases hempty : data.length = 0
            · rw [if_pos hempty] at hs hnext
              cases hs
              exact hnext
            · rw [if_neg hempty] at hs
              cases hs
              exact ⟨rfl, hreaches, hlt, hempty, hread⟩
      · rw [if_neg hlt] at hs
        cases hs
        exact hreaches.done hlt
  | send fildes fileLen t chunks data =>
      obtain ⟨rfl, hreaches, hlt, hnonempty, hread⟩ := h
      have hnext := hreaches.next hlt
      rw [Server.chunk, if_pos hlt, hread] at hnext
      dsimp only at hnext
      rw [if_neg hnonempty] at hnext
      rw [perform] at hs
      by_cases hshort : (Server.write data (req.ios chunks).write).2 ≠ data.length
      · rw [if_pos hshort] at hs hnext
        cases hs
        exact hnext
      · rw [if_neg hshort] at hs hnext
        cases hs
        refine ⟨rfl, hnext, ?_⟩
        have hle := hreaches.le
        dsimp only
        omega
  | returned h => cases hs

end

/-! ### All requests -/

variable {sendheader : Server.Status → ℕ → List UInt8} {items : List Server.Item}
  {files : ℤ → List UInt8} {offsets : Offsets} {calls : List Request}
  {p p' : Pool (Machine (Shared n Request) Offsets)
    (fun t => Caller (Local n Request t) Work Request Server.Handled)}

/-- The requests that a thread has handed to `handler_perform`. -/
def performed : ∀ t : Option (Fin n), Local n Request t → List Request
  | none => fun _ => []
  | some _ => fun w => w.performed

/-- A step of a thread performs the request that it is at. -/
theorem performed_step (t : Option (Fin n)) (ok : Bool) (s : Shared n Request)
    (x : Local n Request t) (s' : Shared n Request) (x' : Local n Request t)
    (h : code t ok s x = some (s', x')) :
  performed t x' = performed t x ++ (request t x).toList
  := by
  cases t with
  | none => rfl
  | some i =>
      have hstep : WorkerStep i s x s' x' := threadMain_cases h
      cases hstep with
      | perform performed req => rfl
      | _ => exact (List.append_nil _).symm

/-- Each request is not yet enqueued, in the queue, held by one worker or answered by one worker,
and its answer is that of `handler_perform` alone. -/
structure Answers (sendheader : Server.Status → ℕ → List UInt8) (items : List Server.Item)
    (files : ℤ → List UInt8) (calls : List Request)
    (p : Pool (Machine (Shared n Request) Offsets)
      (fun t => Caller (Local n Request t) Work Request Server.Handled)) : Prop where
  conserved : Conserved calls p.callers
  answered : ∀ t, (p.threads t).returned.map Prod.fst = performed t (p.threads t).thread
  alone : ∀ t, ∀ x ∈ (p.threads t).returned, alone sendheader items files x.1 = some x.2

/-- What holds in every state of a run. -/
structure Going (sendheader : Server.Status → ℕ → List UInt8) (items : List Server.Item)
    (files : ℤ → List UInt8) (calls : List Request)
    (p : Pool (Machine (Shared n Request) Offsets)
      (fun t => Caller (Local n Request t) Work Request Server.Handled)) : Prop where
  pool : Young p.callers ∧ Conserved calls p.callers
  logged : ∀ t, (p.threads t).returned.map Prod.fst = performed t (p.threads t).thread
  right : (performCalls sendheader items files).Right
    (fun req work => work.Valid sendheader items files req)
    (fun req h => Handler.alone sendheader items files req = some h) p

theorem Going.start :
  Going sendheader items files calls (startFiles sendheader items files calls offsets :
    Pool (Machine (Shared n Request) Offsets) _)
  where
  pool := by
    have hinvariant := Invariant.start (n := n) calls
    have hconserved : Conserved calls (Handler.start (n := n) calls) :=
      Conserved.run (run_nil _)
    exact ⟨hinvariant.young, hconserved⟩
  logged t := by
    cases t with
    | none => rfl
    | some i => rfl
  right t := ⟨fun _ _ => trivial, nofun⟩

/-- Every step of a thread goes on as it should. -/
theorem Going.step {a : Σ _ : Option (Fin n), Bool} (h : Going sendheader items files calls p)
    (hs : Pool.step (codeFiles sendheader items files) a p = some p') :
  Going sendheader items files calls p'
  := by
  constructor
  case pool =>
    refine Calls.invariant (I := fun q => Young q ∧ Conserved calls q) ?_ h.pool hs
    rintro a q q' ⟨hyoung, hconserved⟩ hq
    exact ⟨hyoung.step hq, hconserved.step hyoung hq⟩
  case logged => exact Calls.logged performed_step h.logged hs
  case right =>
    apply Calls.step_right _ _ _ h.right hs
    · exact fun _ => trivial
    · intro t a s req offsets work offsets' work' hvalid hstep
      exact hvalid.step (Option.ite_none_left_eq_some.mp hstep).2
    · intro req work answer hvalid hresult
      cases work with
      | returned h =>
          cases hresult
          exact hvalid
      | _ => cases hresult

/-- For every number of workers, every sequence of calls of `handler_get`, every table of files, and
every schedule of the single calls that the workers make, with the descriptors of the files shared
by all of them: in every state that is reached, each request is not yet enqueued, in the queue, held
by one worker or answered by one worker, and it has been answered as `handler_perform` alone answers
it. -/
theorem replies_alone {as : Schedule n}
    (h : run (Pool.step (codeFiles sendheader items files)) as
      (startFiles sendheader items files calls offsets) = some p) :
  Answers sendheader items files calls p
  := by
  have hgoing : Going sendheader items files calls p :=
    run_invariant (fun a q q' hq hs => hq.step hs) Going.start h
  exact ⟨hgoing.pool.2, hgoing.logged, fun t => (hgoing.right t).2⟩

/-! ### The library that the server is linked with -/

/-- The headers of the library that the server is linked with: the one for a file is that of
`gfserver.c`, and the one for a path without a file has no length. -/
structure Linked (sendheader : Server.Status → ℕ → List UInt8) : Prop where
  ok : ∀ fileLen, sendheader .ok fileLen = Server.gfsSendheader .ok fileLen
  fileNotFound : sendheader .fileNotFound 0 = CString.ascii "GETFILE FILE_NOT_FOUND\r\n\r\n"

/-- The format strings of the library. -/
def linkedSendheader : Server.Status → ℕ → List UInt8
  | .ok, fileLen => CString.ascii "GETFILE OK " ++ CString.decimal fileLen ++
      CString.ascii "\r\n\r\n"
  | .fileNotFound, _ => CString.ascii "GETFILE FILE_NOT_FOUND\r\n\r\n"
  | .error, _ => CString.ascii "GETFILE ERROR\r\n\r\n"

theorem linked_linkedSendheader : Linked linkedSendheader
  := by
  refine ⟨?_, rfl⟩
  intro fileLen
  simp [linkedSendheader, Server.gfsSendheader, Server.gfsStrstatus, CString.ascii]

/-- A request for the path `/a` on a connection on which nothing fails. -/
def oneRequest : Request :=
  ⟨CString.ascii "/a", some 80, fun _ => ⟨some 80, some 80⟩⟩

/-- The boss enqueues one request, and one worker answers it. -/
def oneReply : Schedule 1 :=
  List.replicate 8 ⟨none, true⟩ ++ List.replicate 11 ⟨some (Fin.last 0), false⟩

/-- The table with the file `A` for the path `/a`. -/
def oneItem : List Server.Item :=
  [⟨3, CString.ascii "/a"⟩]

/-- The file of every descriptor is `A`. -/
def oneFile (_ : ℤ) : List UInt8 :=
  CString.ascii "A"

/-- The request is answered. -/
theorem replies_alone_one :
  ∃ p, run (Pool.step (codeFiles linkedSendheader oneItem oneFile)) oneReply
      (startFiles linkedSendheader oneItem oneFile [oneRequest] fun _ => 0) = some p ∧
    (p.threads (some 0)).returned.length = 1 ∧
    Answers linkedSendheader oneItem oneFile [oneRequest] p
  := by
  have hrun : (run (Pool.step (codeFiles linkedSendheader oneItem oneFile)) oneReply
      (startFiles linkedSendheader oneItem oneFile [oneRequest] fun _ => 0)).map
        (fun p => (p.threads (some 0)).returned.length) = some 1 := by
    decide +kernel
  obtain ⟨p, h, hlength⟩ := Option.map_eq_some_iff.mp hrun
  exact ⟨p, h, hlength, replies_alone h⟩

end GetFile.Handler
