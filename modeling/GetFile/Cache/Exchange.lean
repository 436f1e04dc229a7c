import GetFile.Cache.Proxy
import GetFile.Cache.Session

/-!
# What goes on on one segment

A proxy thread releases its segment when it has sent its last packet back, and the worker that
waits for this packet may take it later, when the segment already serves the next request. As
long as each worker takes the packets that are meant for it, what goes on on a segment is one
`Exchange` between a proxy thread and a worker, behind the packets that earlier workers have not
yet taken (`Late`).
-/

namespace GetFile.Cache

open CString

variable {n size workers : ℕ} {get : List UInt8 → Option (List UInt8)}

/-- For a path in the cache, the length of its file has been announced and its bytes have been
sent. -/
def Served (get : List UInt8 → Option (List UInt8)) (path : List UInt8)
    (header : Option (Status × ℕ)) (sent : List UInt8) : Prop :=
  ∀ file, get path = some file → header = some (.ok, file.length) ∧ sent = file

/-- The packet asks for the path, if that is in the cache, and for the segment. -/
structure AsksFor (get : List UInt8 → Option (List UInt8)) (size : ℕ) (i : Fin n)
    (path : List UInt8) (req : Packet) : Prop where
  index : req.segmentIndex = i
  key : ∀ file, get path = some file → ∀ num, get (req.received num size).key = some file

/-- What goes on between a proxy thread in `handle_request` on segment `i` and the worker that
serves it, where `ctrl` are the packets for the segment in the control queue. -/
inductive Exchange (get : List UInt8 → Option (List UInt8)) (i : Fin n) (ctrl : Mq)
    (seg : Segment size) : Option (Proxy n) → Option (Fin workers × Task n) → Prop where
  | quiet (noRequest : ctrl = []) (toProxy : seg.cacheToProxy = [])
      (toCache : seg.proxyToCache = []) : Exchange get i ctrl seg none none
  | requested {x : Proxy n} {req : Packet} (asks : AsksFor get size i x.path req)
      (unanswered : Unanswered x.request) (request : ctrl = [req])
      (toProxy : seg.cacheToProxy = []) (toCache : seg.proxyToCache = []) :
      Exchange get i ctrl seg (some x) none
  | looking {x : Proxy n} {req : Packet} {j : Fin workers}
      (asks : AsksFor get size i x.path req) (unanswered : Unanswered x.request)
      (noRequest : ctrl = []) (toProxy : seg.cacheToProxy = [])
      (toCache : seg.proxyToCache = []) :
      Exchange get i ctrl seg (some x) (some (j, Task.request req))
  | serving {x : Proxy n} {req : Packet} {file : List UInt8} {j : Fin workers} {w : Task n}
      (asks : AsksFor get size i x.path req) (requests : Requests get j size i file req)
      (segment : w.seg = some i) (busy : x.request.pc ≠ .done)
      (phase : Phase (req.answer j size file) file x.request w seg) (noRequest : ctrl = []) :
      Exchange get i ctrl seg (some x) (some (j, w))
  | miss {x : Proxy n} {j : Fin workers} {w : Task n} (absent : get x.path = none)
      (unanswered : Unanswered x.request) (pc : w.pc = .miss) (segment : w.seg = some i)
      (cacheHit : w.thrPkt.cacheHit = 0) (noRequest : ctrl = [])
      (toProxy : seg.cacheToProxy = []) (toCache : seg.proxyToCache = []) :
      Exchange get i ctrl seg (some x) (some (j, w))
  | missed {x : Proxy n} {pkt : Packet} (absent : get x.path = none)
      (unanswered : Unanswered x.request) (cacheHit : pkt.cacheHit = 0) (noRequest : ctrl = [])
      (toProxy : seg.cacheToProxy = [pkt]) (toCache : seg.proxyToCache = []) :
      Exchange get i ctrl seg (some x) none
  | unknown {x : Proxy n} (absent : get x.path = none) (pc : x.request.pc = .header)
      (cacheHit : x.request.thrPkt.cacheHit = 0) (noRequest : ctrl = [])
      (toProxy : seg.cacheToProxy = []) (toCache : seg.proxyToCache = []) :
      Exchange get i ctrl seg (some x) none

/-- The worker waits for the packet, behind which its file is complete. -/
structure Waits (pkt : Packet) (w : Task n) : Prop where
  pc : w.pc = .ack
  all : pkt.fileSize ≤ w.totalBytesRx

variable {i : Fin n} {ctrl : Mq} {seg seg' : Segment size} {x : Proxy n}
  {proxy : Option (Proxy n)} {partner : Option (Fin workers × Task n)} {j : Fin workers}
  {w w' : Task n}

/-! ### The steps of the proxy -/

/-- When the proxy is done and the worker is not, the packet behind which the file is complete is
on its way to the worker. -/
theorem Phase.last {num : ℕ} {base : Packet} {file : List UInt8} {r : HandleRequest}
    (ha : Answers size num file base) (hp : Phase base file r w seg) (hr : r.pc = .done)
    (hw : w.pc ≠ .wait) :
  (∃ c, Given base file file.length c r) ∧ seg.cacheToProxy = [] ∧
    ∃ pkt, seg.proxyToCache = [pkt] ∧ pkt.worker = num ∧ Waits pkt w
  := by
  have hfront : ∀ {k c q}, Front base file k c r q → False := by
    intro k c q hf
    cases hf with
    | filesize unanswered => simp [unanswered.pc] at hr
    | header pc | data pc => simp [pc] at hr
  cases hp with
  | acked k c m pc chunk filled rpc given toProxy toCache =>
      have hall : k + m = file.length := by
        have hle := chunk.le_file
        by_contra hne
        rw [if_pos (by omega), hr] at rpc
        cases rpc
      rw [hall] at filled given
      refine ⟨⟨_, given⟩, toProxy, _, toCache, ha.worker, pc, ?_⟩
      rw [filled.total]
      exact ha.fileSize.le
  | finished c pc => exact absurd pc hw
  | hit _ _ _ unanswered => simp [unanswered.pc] at hr
  | pread _ _ _ _ _ _ front => exact (hfront front).elim
  | sendData _ _ _ _ _ _ _ _ _ front => exact (hfront front).elim
  | queued _ _ _ _ _ _ _ _ front => exact (hfront front).elim
  | taken _ _ _ _ _ _ _ rpc | given _ _ _ _ _ _ rpc => simp [rpc] at hr

/-- The whole file has been given away. -/
theorem Given.served {path file : List UInt8} {req : Packet} {num c : ℕ} {r : HandleRequest}
    (hasks : AsksFor get size i path req) (hreq : Requests get num size i file req)
    (h : Given (req.answer num size file) file file.length c r) :
  Served get path r.header r.sent
  := by
  intro file' hfile'
  have hfound := hasks.key file' hfile' num
  rw [hreq.found] at hfound
  cases hfound
  constructor
  · rw [h.header]
    have hle := hreq.le_max
    have hsize : sizeT (req.answer num size file).fileSize = file.length := by
      simp only [sizeT, Packet.answer]
      omega
    rw [hsize]
  · rw [h.sent, List.take_length]

/-- A step of the proxy leads on in the exchange, or it ends it. Then the call is served, and
the packet that the worker still waits for is on its way. -/
theorem Exchange.proxy_step {r : HandleRequest} (h : Exchange get i ctrl seg (some x) partner)
    (hs : HandleRequest.Step seg x.request seg' r) :
  (r.pc ≠ .done ∧
      Exchange get i ctrl seg' (some { x with pc := .request i, request := r }) partner) ∨
    r.pc = .done ∧ Served get x.path r.header r.sent ∧ ctrl = [] ∧ seg'.cacheToProxy = [] ∧
      (partner = none ∧ seg'.proxyToCache = [] ∨
        ∃ j w pkt, partner = some (j, w) ∧ seg'.proxyToCache = [pkt] ∧ pkt.worker = j ∧ Waits pkt w)
  := by
  cases h with
  | requested asks unanswered request toProxy toCache => exact absurd hs (unanswered.blocked toProxy)
  | looking asks unanswered noRequest toProxy toCache =>
      exact absurd hs (unanswered.blocked toProxy)
  | @serving _ req file j w asks requests segment busy phase noRequest =>
      have hphase := phase.proxy_step requests.answers hs
      by_cases hdone : r.pc = .done
      · right
        have hw : w.pc ≠ .wait := fun hw => busy (phase.done_of_wait hw)
        obtain ⟨⟨c, hgiven⟩, htoProxy, pkt, htoCache, hworker, hwaits⟩ :=
          hphase.last requests.answers hdone hw
        exact ⟨hdone, hgiven.served asks requests, noRequest, htoProxy,
          Or.inr ⟨j, w, pkt, rfl, htoCache, hworker, hwaits⟩⟩
      · left
        exact ⟨hdone, .serving asks requests segment hdone hphase noRequest⟩
  | miss absent unanswered pc segment cacheHit noRequest toProxy toCache =>
      exact absurd hs (unanswered.blocked toProxy)
  | missed absent unanswered cacheHit noRequest toProxy toCache =>
      cases hs with
      | filesize pkt rest pc first =>
          rw [toProxy] at first
          cases first
          left
          exact ⟨by simp, .unknown absent rfl cacheHit noRequest rfl toCache⟩
      | hit pc | miss _ pc | data _ _ pc | gfsSend pc | ack pc => simp [unanswered.pc] at pc
  | unknown absent pc cacheHit noRequest toProxy toCache =>
      cases hs with
      | miss answer =>
          right
          refine ⟨rfl, ?_, noRequest, toProxy, Or.inl ⟨rfl, toCache⟩⟩
          intro file hfile
          rw [absent] at hfile
          cases hfile
      | hit _ hit => exact absurd cacheHit hit
      | filesize _ _ hpc | data _ _ hpc | gfsSend hpc | ack hpc => simp [pc] at hpc

/-! ### The steps of the worker -/

/-- A worker takes the request. -/
theorem Exchange.receive {pkt : Packet} {rest : Mq} (j : Fin workers)
    (h : Exchange get i (pkt :: rest) seg proxy partner) :
  partner = none ∧ rest = [] ∧ Exchange get i [] seg proxy (some (j, Task.request pkt))
  := by
  cases h with
  | quiet noRequest => cases noRequest
  | requested asks unanswered request toProxy toCache =>
      cases request
      exact ⟨rfl, rfl, .looking asks unanswered rfl toProxy toCache⟩
  | looking _ _ noRequest => cases noRequest
  | serving _ _ _ _ _ noRequest => cases noRequest
  | miss _ _ _ _ _ noRequest => cases noRequest
  | missed _ _ _ noRequest => cases noRequest
  | unknown _ _ _ noRequest => cases noRequest

/-- The worker looks the file up. -/
theorem Exchange.lookup (hsize : 0 < size)
    (hfiles : ∀ path file, get path = some file → 0 < file.length ∧ file.length < 2 ^ 31)
    (h : Exchange get i ctrl seg proxy (some (j, w))) (hpc : w.pc = .lookup) :
  Exchange get i ctrl seg proxy (some (j, w.lookup get j size))
  := by
  cases h with
  | @looking x req _ asks unanswered noRequest toProxy toCache =>
      cases hkey : get (req.received j size).key with
      | none =>
          have hsegment : findSegment n (req.received j size).segmentIndex = some i := by
            rw [show (req.received j size).segmentIndex = i from asks.index]
            apply findSegment_val
          have hlookup : (Task.request req).lookup get j size =
              { (Task.request req : Task n) with
                pc := .miss, seg := some i,
                thrPkt := { req.received j size with cacheHit := 0, fileSize := 0 } } := by
            have hthr : (Task.request req : Task n).thrPkt = req := rfl
            unfold Task.lookup Task.fill
            simp only [hthr, hsegment, hkey]
          rw [hlookup]
          refine .miss ?_ unanswered rfl rfl rfl noRequest toProxy toCache
          cases habsent : get x.path with
          | none => rfl
          | some file =>
              have hfound := asks.key file habsent j
              rw [hkey] at hfound
              cases hfound
      | some file =>
          obtain ⟨hpos, hle⟩ := hfiles _ file hkey
          have hreq : Requests get j size i file req := ⟨⟨hsize, asks.index, hkey⟩, hpos, hle⟩
          rw [hreq.lookup]
          refine .serving asks hreq rfl (by simp [unanswered.pc]) ?_ noRequest
          exact .hit rfl ⟨rfl, rfl, rfl, rfl, rfl, nofun, rfl⟩ rfl unanswered toProxy toCache
  | serving _ _ _ _ phase => exact absurd hpc phase.worker_pc
  | miss _ _ pc => simp [hpc] at pc

/-- A step of the worker on the segment leads on in the exchange, or the worker has sent the
answer that the file is not there. -/
theorem Exchange.task_step (h : Exchange get i ctrl seg proxy (some (j, w)))
    (hs : Task.Step j seg w seg' w') :
  (w'.pc ≠ .wait ∧ w'.pc ≠ .lookup ∧ Exchange get i ctrl seg' proxy (some (j, w'))) ∨
    w'.pc = .wait ∧ Exchange get i ctrl seg' proxy (none : Option (Fin workers × Task n))
  := by
  cases h with
  | looking =>
      cases hs with
      | miss pc | hit pc | fail pc | pread _ pc | sendData pc | ack _ _ pc => cases pc
  | serving asks requests segment busy phase noRequest =>
      left
      have hphase := phase.worker_step requests.answers hs
      refine ⟨fun hw => busy (hphase.done_of_wait hw), hphase.worker_pc, ?_⟩
      exact .serving asks requests (hs.seg.trans segment) busy hphase noRequest
  | miss absent unanswered pc segment cacheHit noRequest toProxy toCache =>
      cases hs with
      | miss =>
          right
          refine ⟨rfl, .missed absent unanswered cacheHit noRequest ?_ toCache⟩
          simp [toProxy]
      | hit hpc | fail hpc | pread _ hpc | sendData hpc | ack _ _ hpc => simp [pc] at hpc

/-! ### The packets that have not been taken -/

/-- The packets `old` are each the last one for a worker that still waits for it, and there are no
other workers on the segment. -/
structure Late (old : Mq) (tasks : Fin workers → Option (Task n)) : Prop where
  nodup : (old.map Packet.worker).Nodup
  waits : ∀ pkt ∈ old, ∃ (j : Fin workers) (w : Task n),
    pkt.worker = j ∧ tasks j = some w ∧ Waits pkt w
  only : ∀ j w, tasks j = some w → ∃ pkt ∈ old, pkt.worker = j

variable {old : Mq} {tasks : Fin workers → Option (Task n)} {pkt : Packet}

/-- A worker among the late ones waits for its packet. -/
theorem Late.waits_of (h : Late old tasks) (hw : tasks j = some w) :
  ∃ pkt ∈ old, pkt.worker = j ∧ Waits pkt w
  := by
  obtain ⟨pkt, hpkt, hworker⟩ := h.only j w hw
  obtain ⟨j', w', hworker', hw', hwaits⟩ := h.waits pkt hpkt
  have hj : j' = j := Fin.ext (hworker'.symm.trans hworker)
  subst hj
  rw [hw] at hw'
  cases hw'
  exact ⟨pkt, hpkt, hworker, hwaits⟩

/-- A packet for a worker among the late ones, at the end of the queue. -/
theorem Late.append (h : Late old (Function.update tasks j none)) (hw : tasks j = some w)
    (hworker : pkt.worker = j) (hwaits : Waits pkt w) :
  Late (old ++ [pkt]) tasks
  := by
  have hne : ∀ pkt' ∈ old, pkt'.worker ≠ j := by
    intro pkt' hpkt' heq
    obtain ⟨j', w', hworker', hw', -⟩ := h.waits pkt' hpkt'
    have hj : j' = j := Fin.ext (hworker'.symm.trans heq)
    subst hj
    rw [Function.update_self] at hw'
    cases hw'
  constructor
  · rw [List.map_append, List.map_singleton, ← List.concat_eq_append, List.nodup_concat]
    refine ⟨?_, h.nodup⟩
    intro hmem
    obtain ⟨pkt', hpkt', heq⟩ := List.mem_map.mp hmem
    exact hne pkt' hpkt' (heq.trans hworker)
  · intro pkt' hpkt'
    obtain hold | hlast := List.mem_append.mp hpkt'
    · obtain ⟨j', w', hworker', hw', hwaits'⟩ := h.waits pkt' hold
      have hj : j' ≠ j := by
        rintro rfl
        exact hne pkt' hold hworker'
      rw [Function.update_of_ne hj] at hw'
      exact ⟨j', w', hworker', hw', hwaits'⟩
    · rw [List.mem_singleton.mp hlast]
      exact ⟨j, w, hworker, hw, hwaits⟩
  · intro j' w' hw'
    by_cases hj : j' = j
    · subst hj
      exact ⟨pkt, by simp, hworker⟩
    · rw [← Function.update_of_ne hj none tasks] at hw'
      obtain ⟨pkt', hpkt', hworker'⟩ := h.only j' w' hw'
      exact ⟨pkt', List.mem_append_left _ hpkt', hworker'⟩

/-- The worker of the first packet takes it. -/
theorem Late.tail (h : Late (pkt :: old) tasks) (hworker : pkt.worker = j) :
  Late old (Function.update tasks j none)
  := by
  have hnodup := h.nodup
  rw [List.map_cons, List.nodup_cons] at hnodup
  obtain ⟨hhead, hnodup⟩ := hnodup
  constructor
  · exact hnodup
  · intro pkt' hpkt'
    obtain ⟨j', w', hworker', hw', hwaits'⟩ := h.waits pkt' (List.mem_cons_of_mem _ hpkt')
    refine ⟨j', w', hworker', ?_, hwaits'⟩
    rw [Function.update_of_ne]
    · exact hw'
    · rintro rfl
      apply hhead
      rw [hworker, ← hworker']
      exact List.mem_map_of_mem hpkt'
  · intro j' w' hw'
    have hj : j' ≠ j := by
      rintro rfl
      rw [Function.update_self] at hw'
      cases hw'
    rw [Function.update_of_ne hj] at hw'
    obtain ⟨pkt', hpkt', hworker'⟩ := h.only j' w' hw'
    obtain rfl | hmem := List.mem_cons.mp hpkt'
    · exact absurd (Fin.ext (hworker'.symm.trans hworker)) hj
    · exact ⟨pkt', hmem, hworker'⟩

/-- Without late packets there are no late workers. -/
theorem Late.nil (h : Late [] tasks) (j : Fin workers) :
  tasks j = none
  := by
  cases hw : tasks j with
  | none => rfl
  | some w =>
      obtain ⟨pkt, hpkt, -⟩ := h.only j w hw
      cases hpkt

end GetFile.Cache
