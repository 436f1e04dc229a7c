import GetFile.Cache.Progress

/-!
# Every call returns

Whatever the schedule is, the calls of `handle_with_cache` that have begun return: every step
leaves fewer steps (`Transfers.less`), and as long as a call has not returned, some step is
possible.
-/

namespace GetFile.Cache

open CString Transition

variable {n size threads workers : ℕ} {get : List UInt8 → Option (List UInt8)}
  {p p' : Pool (Shared n size threads workers) (ThreadLocal n threads workers)}
  {a : Σ t : ThreadId threads workers, ThreadAct threads workers t}
  {i : Fin n} {t : Fin threads} {j : Fin workers}

/-! ### The steps that are left -/

/-- The steps that the bytes behind the first `total` ones cost at most, where a file is shorter
than `2 ^ 31` bytes. -/
def rest (total : ℤ) : ℕ :=
  3 * (2 ^ 31 - total.toNat)

/-- The steps that a packet in the control queue costs at most. -/
def packetCost : ℕ := 3 * 2 ^ 31 + 4

/-- The steps that are left in `handle_request`, with those of its packet. -/
def HandleRequest.cost (r : HandleRequest) : ℕ :=
  match r.pc with
  | .send => rest r.totalBytesRx + 4 + packetCost
  | .filesize => rest r.totalBytesRx + 3
  | .header => rest r.totalBytesRx + 2
  | .data => rest r.totalBytesRx + 1
  | .gfsSend => rest r.totalBytesRx
  | .ack => rest r.totalBytesRx + 2
  | .done => 0

/-- The steps that are left for the request that a worker serves. -/
def Task.cost (w : Task n) : ℕ :=
  match w.pc with
  | .wait => 0
  | .lookup => 3 * 2 ^ 31 + 3
  | .miss => 1
  | .hit => rest w.totalBytesRx + 2
  | .pread => rest w.totalBytesRx + 1
  | .sendData => rest w.totalBytesRx
  | .ack => rest w.totalBytesRx + 2
  | .failed => 0

/-- The steps of `handle_request` and of its packet. -/
def callCost : ℕ := 3 * 2 ^ 31 + 4 + packetCost

/-- The steps that are left in `handle_with_cache`. A thread that is blocked counts more than one
that goes to its wait, and what it counts more is paid by the signal that wakes it up. -/
def Proxy.cost (x : Proxy n) : ℕ :=
  match x.pc with
  | .out => 0
  | .lock => 14 + callCost
  | .test => 13 + callCost
  | .wait => 12 + callCost
  | .blocked => 14 + callCost
  | .pop => 11 + callCost
  | .unlock _ => 10 + callCost
  | .request _ => 9 + x.request.cost
  | .lockRelease _ => 8
  | .push _ => 7
  | .signal => 6
  | .unlockRelease => 1

/-- The steps that are left for a thread. -/
def cost : ∀ t : ThreadId threads workers, ThreadLocal n threads workers t → ℕ
  | .inl _ => Proxy.cost
  | .inr _ => Task.cost

/-- The steps that are left in a state. -/
def stepsLeft (p : Pool (Shared n size threads workers) (ThreadLocal n threads workers)) : ℕ :=
  packetCost * p.shared.channels.ctrl.length + ∑ t, cost t (p.threads t)
    - 4 * p.shared.segCond.blocked.length

/-- A chunk of `m` bytes behind the first `total` ones is not empty and lies in a file. -/
def Room (total m : ℤ) : Prop :=
  0 ≤ total ∧ 0 < m ∧ total + m ≤ 2 ^ 31

/-- Behind a chunk there are fewer bytes. -/
theorem Room.rest {total m : ℤ} (h : Room total m) :
  rest (total + m) + 3 ≤ rest total
  := by
  obtain ⟨hpos, hm, hle⟩ := h
  unfold Cache.rest
  omega

/-- Every step in the loop of `handle_request` leaves fewer steps. -/
theorem HandleRequest.Step.cost {seg seg' : Segment size} {r r' : HandleRequest}
    (h : HandleRequest.Step seg r seg' r')
    (hroom : r.pc = .gfsSend → Room r.totalBytesRx r.thrPkt.chunkSize) :
  r'.cost < r.cost
  := by
  have hloop : ∀ r : HandleRequest, r.loop.cost ≤ rest r.totalBytesRx + 1 := by
    intro r
    unfold HandleRequest.loop
    by_cases hlt : r.totalBytesRx < r.thrPkt.fileSize
    · simp [hlt, HandleRequest.cost]
    · simp [hlt, HandleRequest.cost]
  cases h with
  | filesize pkt rest pc | data pkt rest pc => simp [HandleRequest.cost, pc]
  | hit pc =>
      have hle := hloop { r with header := some (.ok, sizeT r.thrPkt.fileSize) }
      simp only [HandleRequest.cost, pc] at hle ⊢
      omega
  | miss answer pc => simp [HandleRequest.cost, pc]
  | gfsSend pc =>
      have hrest := (hroom pc).rest
      simp only [HandleRequest.cost, pc]
      omega
  | ack pc =>
      have hle := hloop r
      simp only [HandleRequest.cost, pc] at hle ⊢
      omega

/-- Every step of a worker on its segment leaves fewer steps. -/
theorem Task.Step.cost {num : ℕ} {seg seg' : Segment size} {w w' : Task n}
    (h : Task.Step num seg w seg' w')
    (hroom : w.pc = .sendData → Room w.totalBytesRx w.thrPkt.chunkSize) :
  w'.cost < w.cost
  := by
  have hloop : ∀ w : Task n, w.loop.cost ≤ rest w.totalBytesRx + 1 := by
    intro w
    unfold Task.loop
    by_cases hlt : w.totalBytesRx < w.thrPkt.fileSize
    · simp [hlt, Task.cost]
    · simp [hlt, Task.cost]
  cases h with
  | miss pc => simp [Task.cost, pc]
  | hit pc =>
      have hle := hloop w
      simp only [Task.cost, pc] at hle ⊢
      omega
  | fail pc => simp [Task.cost, pc]
  | pread k pc => simp [Task.cost, pc]
  | sendData pc =>
      have hrest := (hroom pc).rest
      simp only [Task.cost, pc]
      omega
  | ack pkt rest pc =>
      have hle := hloop { w with thrPkt := pkt, acked := w.acked + 1 }
      simp only [Task.cost, pc] at hle ⊢
      omega

/-- The lookup leaves fewer steps. -/
theorem Task.lookup_cost {num : ℕ} {w : Task n} (hpc : w.pc = .lookup) :
  (w.lookup get num size).cost < w.cost
  := by
  have hrest : rest w.totalBytesRx ≤ 3 * 2 ^ 31 := by
    unfold rest
    omega
  have hcost : w.cost = 3 * 2 ^ 31 + 3 := by rw [Task.cost, hpc]
  rw [hcost]
  unfold Task.lookup Task.fill
  dsimp only
  split
  · simp [Task.cost]
  · split
    · simp [Task.cost]
    · split
      · simp only [Task.cost]
        omega
      · simp [Task.cost]

/-- The proxy gives away a chunk of the file. -/
theorem Phase.room_proxy {base : Packet} {file : List UInt8} {r : HandleRequest}
    {w : Task n} {seg : Segment size} (hle : file.length < 2 ^ 31) (hp : Phase base file r w seg)
    (hpc : r.pc = .gfsSend) :
  Room r.totalBytesRx r.thrPkt.chunkSize
  := by
  have hfront : ∀ {k c q}, Front base file k c r q → False := by
    intro k c q hf
    cases hf with
    | filesize unanswered => simp [unanswered.pc] at hpc
    | header pc | data pc => simp [pc] at hpc
  cases hp with
  | taken k c m pc chunk filled holds rpc thrPkt given =>
      have hfile := chunk.le_file
      have hpos := chunk.pos
      rw [given.total, thrPkt]
      simp only [Room, Packet.ofChunk]
      omega
  | hit _ _ _ unanswered => simp [unanswered.pc] at hpc
  | pread _ _ _ _ _ _ front => exact (hfront front).elim
  | sendData _ _ _ _ _ _ _ _ _ front => exact (hfront front).elim
  | queued _ _ _ _ _ _ _ _ front => exact (hfront front).elim
  | given _ _ _ _ _ _ rpc => simp [rpc] at hpc
  | acked k _ m _ _ _ rpc =>
      rw [rpc] at hpc
      split at hpc
      · cases hpc
      · cases hpc
  | finished _ _ _ rpc => simp [rpc] at hpc

/-- The worker sends a chunk of the file. -/
theorem Phase.room_worker {base : Packet} {file : List UInt8} {r : HandleRequest}
    {w : Task n} {seg : Segment size} (hle : file.length < 2 ^ 31) (hp : Phase base file r w seg)
    (hpc : w.pc = .sendData) :
  Room w.totalBytesRx w.thrPkt.chunkSize
  := by
  cases hp with
  | sendData k c m q pc chunk filled thrPkt =>
      have hfile := chunk.le_file
      have hpos := chunk.pos
      rw [filled.total, thrPkt]
      simp only [Room, Packet.ofChunk]
      omega
  | pread _ _ _ pc => simp [hpc] at pc
  | hit pc | queued _ _ _ _ pc | taken _ _ _ pc | given _ _ _ pc | acked _ _ _ pc
  | finished _ pc => simp [hpc] at pc

/-- In the exchange both threads go through the file chunk by chunk. -/
theorem Exchange.room {ctrl : Mq} {seg : Segment size} {proxy : Option (Proxy n)}
    {partner : Option (Fin workers × Task n)} (h : Exchange get i ctrl seg proxy partner) :
  (∀ x, proxy = some x → x.request.pc = .gfsSend →
      Room x.request.totalBytesRx x.request.thrPkt.chunkSize) ∧
    ∀ j w, partner = some (j, w) → w.pc = .sendData → Room w.totalBytesRx w.thrPkt.chunkSize
  := by
  have hunanswered : ∀ {r : HandleRequest}, Unanswered r → r.pc ≠ .gfsSend := by
    intro r h
    simp [h.pc]
  cases h with
  | quiet => exact ⟨by rintro _ ⟨⟩, by rintro _ _ ⟨⟩⟩
  | requested asks unanswered | missed absent unanswered =>
      refine ⟨?_, by rintro _ _ ⟨⟩⟩
      rintro _ ⟨⟩ hpc
      exact absurd hpc (hunanswered unanswered)
  | looking asks unanswered =>
      constructor
      · rintro _ ⟨⟩ hpc
        exact absurd hpc (hunanswered unanswered)
      · rintro _ _ ⟨⟩ hpc
        cases hpc
  | serving asks requests segment busy phase =>
      constructor
      · rintro _ ⟨⟩ hpc
        exact phase.room_proxy requests.le_max hpc
      · rintro _ _ ⟨⟩ hpc
        exact phase.room_worker requests.le_max hpc
  | miss absent unanswered pc =>
      constructor
      · rintro _ ⟨⟩ hpc
        exact absurd hpc (hunanswered unanswered)
      · rintro _ _ ⟨⟩ hpc
        rw [pc] at hpc
        cases hpc
  | unknown absent pc =>
      refine ⟨?_, by rintro _ _ ⟨⟩⟩
      rintro _ ⟨⟩ hpc
      rw [pc] at hpc
      cases hpc

/-- A proxy thread gives away a chunk of a file. -/
theorem Transfers.room_proxy (h : Transfers get p) (hpc : (p.threads (.inl t)).pc = .request i)
    (hsend : (p.threads (.inl t)).request.pc = .gfsSend) :
  Room (p.threads (.inl t)).request.totalBytesRx (p.threads (.inl t)).request.thrPkt.chunkSize
  := by
  obtain ⟨old, cur, proxy, partner, hmode⟩ := h.modes i
  have hon : proxyOn i (p.threads (.inl t)) = some (p.threads (.inl t)) :=
    if_pos ⟨hpc, by simp [hsend], by simp [hsend]⟩
  obtain rfl := hmode.proxy_eq hon
  exact hmode.exchange.room.1 _ rfl hsend

/-- A worker sends a chunk of a file. -/
theorem Transfers.room_worker (h : Transfers get p) (hseg : (p.threads (.inr j)).seg = some i)
    (hpc : (p.threads (.inr j)).pc = .sendData) :
  Room (p.threads (.inr j)).totalBytesRx (p.threads (.inr j)).thrPkt.chunkSize
  := by
  obtain ⟨old, cur, proxy, partner, hmode⟩ := h.modes i
  have hon : taskOn i (p.threads (.inr j)) = some (p.threads (.inr j)) :=
    if_pos ((Task.on_of_ne (by simp [hpc])).mpr ⟨by simp [hpc], hseg⟩)
  obtain rfl | ⟨pkt, -, -, hwaits⟩ := hmode.task_cases hon
  · exact hmode.exchange.room.2 j _ rfl hpc
  · have hack := hwaits.pc
    rw [hpc] at hack
    cases hack

/-- A thread that is not woken up without a signal takes the mutex when it returns from its
wait. -/
theorem handleWithCache_pc {t : ThreadId threads workers} {b : ProxyAct}
    {s s' : Shared n size threads workers} {x x' : Proxy n}
    (h : handleWithCache t b s x = some (s', x')) (hb : b.spurious = false)
    (hpc : x.pc = .blocked) :
  x'.pc = .test
  := by
  unfold handleWithCache at h
  split at h
  · cases h
  · simp only [hpc] at h
    rw [if_neg (by simp [hb])] at h
    obtain ⟨m, -, heq⟩ := Option.map_eq_some_iff.mp h
    cases heq
    rfl

/-- Every forward step of a proxy thread leaves fewer steps. -/
theorem handleWithCache_cost {t : ThreadId threads workers} {b : ProxyAct}
    {s s' : Shared n size threads workers} {x x' : Proxy n}
    (h : handleWithCache t b s x = some (s', x')) (hb : b.spurious = false) (hout : x.pc ≠ .out)
    (hfound : x.pc = .pop → s.segQueue ≠ [])
    (hroom : ∀ i, x.pc = .request i → x.request.pc = .gfsSend →
      Room x.request.totalBytesRx x.request.thrPkt.chunkSize) :
  packetCost * s'.channels.ctrl.length + x'.cost + 4 * s.segCond.blocked.length
    < packetCost * s.channels.ctrl.length + x.cost + 4 * s'.segCond.blocked.length
  := by
  have hcond := handleWithCache_segCond h
  have hstep := handleWithCache_cases h
  cases hstep with
  | out pc => exact absurd pc hout
  | underflow pc hq => exact absurd hq (hfound pc)
  | spurious pc =>
      have htest := handleWithCache_pc h hb pc
      rw [pc] at htest
      cases htest
  | wait pc =>
      simp only [Proxy.segCond, pc] at hcond
      simp only [Proxy.cost, pc, hcond, Condition.wait, List.length_append, List.length_singleton]
      omega
  | signal pc =>
      simp only [Proxy.segCond, pc] at hcond
      simp only [Proxy.cost, pc, hcond, Condition.signal, List.length_tail]
      omega
  | request i channels r pc busy step =>
      obtain ⟨hsend, rfl, rfl⟩ | ⟨seg', hloop, rfl⟩ := handleRequest_cases step
      · simp only [Proxy.cost, pc, HandleRequest.cost, hsend, List.length_append,
          List.length_singleton, Nat.mul_add, Nat.mul_one]
        omega
      · have hless := hloop.cost (hroom i pc)
        simp only [Proxy.cost, pc, Channels.set]
        omega
  | done i pc done =>
      simp only [Proxy.cost, pc]
      omega
  | unlock i pc =>
      have hcost : (HandleRequest.start (initThreadPkt b.pkt x.path b.behind i)).cost =
          callCost := rfl
      simp only [Proxy.cost, pc, hcost]
      omega
  | lock pc | empty pc | found pc | awake pc | pop _ _ pc | lockRelease _ pc | push _ pc
  | unlockRelease pc =>
      simp only [Proxy.cost, pc]
      omega

/-- Every step of a worker leaves fewer steps. -/
theorem Transfers.task_cost (h : Transfers get p) {k : ℕ} {c : Channels n size} {w : Task n}
    (hstep : performTask get j k p.shared.channels (p.threads (.inr j)) = some (c, w)) :
  packetCost * c.ctrl.length + w.cost
    < packetCost * p.shared.channels.ctrl.length + (p.threads (.inr j)).cost
  := by
  obtain ⟨-, hmove⟩ := performTask_cases hstep
  by_cases hwait : (p.threads (.inr j)).pc = .wait
  · obtain ⟨pkt, ctrl, ⟨hfirst, rfl⟩, rfl⟩ := hmove.of_wait hwait
    have hcost : (Task.request pkt : Task n).cost = 3 * 2 ^ 31 + 3 := rfl
    rw [hfirst, hcost, List.length_cons, Nat.mul_add]
    dsimp only
    unfold packetCost
    omega
  · by_cases hlookup : (p.threads (.inr j)).pc = .lookup
    · obtain ⟨rfl, rfl⟩ := hmove.of_lookup hlookup
      have hless := @Task.lookup_cost n size get j _ hlookup
      dsimp only
      omega
    · obtain ⟨i, seg', hseg, hbody, -, rfl⟩ := hmove.of_body hwait hlookup
      have hless := hbody.cost (h.room_worker hseg)
      simp only [Channels.set]
      omega

/-- Every forward step leaves fewer steps. -/
theorem Transfers.less (h : Transfers get p) (hw : Waiting p) (hw' : Waiting p')
    (ha : Forward a p) (hs : Pool.step (code get) a p = some p') :
  stepsLeft p' < stepsLeft p
  := by
  have hbound : ∀ {q : Pool (Shared n size threads workers) (ThreadLocal n threads workers)},
      Waiting q → 4 * q.shared.segCond.blocked.length ≤ ∑ t, cost t (q.threads t) := by
    intro q hq
    apply hq.parked.length_le
    intro t ht
    cases t with
    | inl t =>
        simp only [AtWait] at ht
        simp only [cost, Proxy.cost, ht]
        omega
    | inr j => exact ht.elim
  have hp := hbound hw
  have hp' := hbound hw'
  unfold stepsLeft
  obtain ⟨t, b⟩ := a
  cases t with
  | inl t =>
      obtain ⟨hout, hb⟩ := ha
      have hown : handleWithCache (.inl t) b p.shared (p.threads (.inl t)) =
          some (p'.shared, p'.threads (.inl t)) := Pool.step_own hs
      have hless := handleWithCache_cost hown hb hout (h.segments.found t) fun i => h.room_proxy
      have hsum : ∑ u, cost u (p'.threads u) + (p.threads (.inl t)).cost =
          ∑ u, cost u (p.threads u) + (p'.threads (.inl t)).cost := Pool.step_sum cost hs
      omega
  | inr j =>
      have hown : code get (.inr j) b p.shared (p.threads (.inr j)) =
          some (p'.shared, p'.threads (.inr j)) := Pool.step_own hs
      obtain ⟨hstep, hshared⟩ := code_worker hown
      have hless := h.task_cost hstep
      have hcond : p'.shared.segCond = p.shared.segCond := by rw [hshared]
      have hsum : ∑ u, cost u (p'.threads u) + (p.threads (.inr j)).cost =
          ∑ u, cost u (p.threads u) + (p'.threads (.inr j)).cost := Pool.step_sum cost hs
      rw [hcond] at hp' ⊢
      omega

/-! ### All calls return -/

/-- The calls of a proxy thread that have begun. -/
def Proxy.begun (x : Proxy n) : ℕ :=
  x.calls.length + if x.pc = .out then 0 else 1

/-- A thread in a call begins no other one. -/
theorem ProxyStep.begun {t : ThreadId threads workers} {b : ProxyAct}
    {s s' : Shared n size threads workers} {x x' : Proxy n} (h : ProxyStep t b s x s' x')
    (hout : x.pc ≠ .out) :
  x'.begun = x.begun
  := by
  unfold Proxy.begun
  rw [if_neg hout]
  cases h with
  | out pc => exact absurd pc hout
  | unlockRelease pc => simp
  | lock | empty | found | wait | spurious | awake | pop | underflow | unlock | done | request
  | lockRelease | push | signal => simp_all

/-- Forward steps begin no call. -/
theorem Forward.begun (ha : Forward a p) (hs : Pool.step (code get) a p = some p')
    (u : Fin threads) :
  (p'.threads (.inl u)).begun = (p.threads (.inl u)).begun
  := by
  obtain ⟨t, b⟩ := a
  cases t with
  | inl t =>
      by_cases hu : u = t
      · subst hu
        exact (handleWithCache_cases (Pool.step_own hs)).begun ha.1
      · rw [Pool.step_other hs fun he => hu (Sum.inl.inj he)]
  | inr j => rw [Pool.step_other hs Sum.inl_ne_inr]

/-- What holds in every state that a regular run reaches. -/
structure Going (get : List UInt8 → Option (List UInt8))
    (p : Pool (Shared n size threads workers) (ThreadLocal n threads workers)) : Prop where
  transfers : Transfers get p
  waiting : Waiting p
  alive : Alive p

/-- Every regular step keeps it. -/
theorem Going.step (hsize : 0 < size)
    (hfiles : ∀ path file, get path = some file → 0 < file.length ∧ file.length < 2 ^ 31)
    (hpaths : ∀ path file, get path = some file → path.length < maxRequestLen)
    (h : Going get p) (ha : Regular a p) (hs : Pool.step (code get) a p = some p') :
  Going get p'
  := by
  have hok : StepOk get a p := by
    obtain ⟨t, b⟩ := a
    cases t with
    | inl t =>
        intro i _ hget
        obtain ⟨file, hfile⟩ := Option.ne_none_iff_exists'.mp hget
        exact hpaths _ file hfile
    | inr j => exact ha.2
  constructor
  case transfers => exact h.transfers.step hsize hfiles hok hs
  case waiting => exact h.waiting.step h.transfers.segments hs
  case alive =>
    obtain ⟨t, b⟩ := a
    cases t with
    | inl t => exact h.alive.proxy_step h.transfers hs
    | inr j => exact h.alive.task_step hfiles ha.1 hs

end GetFile.Cache
