import GetFile.Cache.Session

/-!
# The size of a file on its way to the client

The length of a file goes through an `unsigned`, a print with `%d`, `atoi`, an `int` field of
the packet and a `size_t` argument. It arrives as it was (`TrueSize`) exactly when it is
positive and fits into an `int`: a length that is a multiple of `2 ^ 32` ends the cache, and any
other one is announced as something else.
-/

namespace GetFile.Cache

open CString Transition

variable {n size : ℕ} {get : List UInt8 → Option (List UInt8)} {num : ℕ} {i : Fin n}
  {file : List UInt8} {req pkt : Packet} {p p' : Pool (Channels n size) (PartyLocal n)}

/-- In a state of the exchange the cache has not failed, it answers with the length `len`, and
the proxy announces that length; at the end it has announced it, and the chunks sent add up
to it. -/
structure SizedState (get : List UInt8 → Option (List UInt8)) (num : ℕ) (i : Fin n) (len : ℕ)
    (p : Pool (Channels n size) (PartyLocal n)) : Prop where
  running : p.shared.exited = false
  answers : ∀ x ∈ (p.shared.segments i).cacheToProxy, x.cacheHit ≠ 0 ∧ x.fileSize = len
  announced : ∀ x, (p.threads .proxy).header = some x → x = (.ok, len)
  enabled : ¬ Complete p → ∃ a, (Pool.step (session get num i) a p).isSome = true
  complete : Complete p → (p.threads .proxy).header = some (.ok, len) ∧
    ((p.threads .cache).sent.map fun pkt => pkt.chunkSize).sum = len

/-- A request is served with the true length of the file: every run comes to its end, and every
state that it reaches is sized. -/
def TrueSize (get : List UInt8 → Option (List UInt8)) (num : ℕ) (i : Fin n) (len : ℕ)
    (start : Pool (Channels n size) (PartyLocal n)) : Prop :=
  (∃ bound, ∀ as p, run (Pool.step (session get num i)) as start = some p →
    as.length ≤ bound) ∧
  ∀ as p, run (Pool.step (session get num i)) as start = some p → SizedState get num i len p

/-! ### Lengths that fit -/

/-- A length that fits into an `int` is the same as a `size_t`. -/
theorem sizeT_natCast {len : ℕ} (h : len < 2 ^ 31) :
  sizeT len = len
  := by
  unfold sizeT
  omega

/-- What the proxy has announced is the length in the answer. -/
theorem Phase.announced {base : Packet} {r : HandleRequest} {w : Task n}
    {seg : Segment size} (hp : Phase base file r w seg) {x : Status × ℕ}
    (hx : r.header = some x) :
  x = (.ok, sizeT base.fileSize)
  := by
  have hgiven : ∀ {k c}, Given base file k c r → x = (.ok, sizeT base.fileSize) := by
    intro k c hg
    rw [hg.header, Option.some.injEq] at hx
    exact hx.symm
  have hfront : ∀ {k c q}, Front base file k c r q → x = (.ok, sizeT base.fileSize) := by
    intro k c q hf
    cases hf with
    | filesize unanswered => simp [unanswered.header] at hx
    | header _ _ header => simp [header] at hx
    | data _ given => exact hgiven given
  cases hp with
  | hit _ _ _ unanswered => simp [unanswered.header] at hx
  | pread _ _ _ _ _ _ front => exact hfront front
  | sendData _ _ _ _ _ _ _ _ _ front => exact hfront front
  | queued _ _ _ _ _ _ _ _ front => exact hfront front
  | taken _ _ _ _ _ _ _ _ _ given => exact hgiven given
  | given _ _ _ _ _ _ _ _ given => exact hgiven given
  | acked _ _ _ _ _ _ _ given => exact hgiven given
  | finished _ _ _ _ given => exact hgiven given

/-- All messages to the proxy carry the length in the answer. -/
theorem Phase.answers {base : Packet} {r : HandleRequest} {w : Task n}
    {seg : Segment size} (hp : Phase base file r w seg) {x : Packet}
    (hx : x ∈ seg.cacheToProxy) :
  x.cacheHit = base.cacheHit ∧ x.fileSize = base.fileSize
  := by
  have hfront : ∀ {k c q}, Front base file k c r q → x ∈ q →
      x.cacheHit = base.cacheHit ∧ x.fileSize = base.fileSize := by
    intro k c q hf hq
    cases hf with
    | filesize =>
        rw [List.mem_singleton.mp hq]
        exact ⟨rfl, rfl⟩
    | header | data => cases hq
  cases hp with
  | hit _ _ _ _ toProxy | taken _ _ _ _ _ _ _ _ _ _ toProxy | given _ _ _ _ _ _ _ _ _ toProxy
  | acked _ _ _ _ _ _ _ _ toProxy | finished _ _ _ _ _ toProxy => simp [toProxy] at hx
  | pread _ _ _ _ _ _ front toProxy => exact hfront front (toProxy ▸ hx)
  | sendData _ _ _ _ _ _ _ _ _ front toProxy => exact hfront front (toProxy ▸ hx)
  | queued _ _ _ _ _ _ _ _ front toProxy =>
      rw [toProxy] at hx
      obtain hq | hlast := List.mem_append.mp hx
      · exact hfront front hq
      · rw [List.mem_singleton.mp hlast]
        exact ⟨rfl, rfl⟩

/-- The exchange of a file whose length fits into an `int` is sized. -/
theorem Session.sized (hreq : Requests get num size i file req)
    (h : Session num i req pkt file p) :
  SizedState get num i file.length p
  := by
  have hsize : sizeT (req.answer num size file).fileSize = file.length := sizeT_natCast hreq.le_max
  constructor
  case running => exact h.running
  case enabled => exact h.enabled hreq
  case answers =>
    intro x hx
    cases h with
    | start _ _ quiet =>
        rw [quiet.toProxy] at hx
        cases hx
    | requested _ _ _ quiet =>
        rw [show (p.shared.segments i).cacheToProxy = [] from quiet.toProxy] at hx
        cases hx
    | looking _ _ quiet =>
        rw [quiet.toProxy] at hx
        cases hx
    | serving _ _ _ _ phase =>
        obtain ⟨hhit, hfs⟩ := phase.answers hx
        rw [hhit, hfs]
        exact ⟨hreq.answers.cacheHit, rfl⟩
  case announced =>
    intro x hx
    cases h with
    | start proxy => simp [proxy, HandleRequest.start] at hx
    | requested unanswered | looking unanswered => simp [unanswered.header] at hx
    | serving _ _ _ _ phase => rw [phase.announced hx, hsize]
  case complete =>
    rintro ⟨hr, hw⟩
    cases h with
    | start proxy => simp [proxy, HandleRequest.start] at hr
    | requested unanswered | looking unanswered => simp [unanswered.pc] at hr
    | serving _ _ _ _ phase =>
        obtain ⟨c, filled, given, -⟩ := phase.complete hw
        rw [given.header, hsize]
        exact ⟨rfl, filled.sum⟩

/-! ### Lengths that do not fit -/

/-- The first three steps of a request: the proxy sends its packet, the cache receives it and
looks the file up. -/
theorem run_lookup (get : List UInt8 → Option (List UInt8)) (num : ℕ) (req pkt : Packet)
    {c : Channels n size} (hc : Quiet c i) :
  ∃ p, run (Pool.step (session get num i))
      [⟨.proxy, (0 : ℤ)⟩, ⟨.cache, (0 : ℕ)⟩, ⟨.cache, (0 : ℕ)⟩] (sessionStart c req pkt) = some p ∧
    p.threads .cache = (Task.request req).lookup get num size ∧
    p.shared.exited = decide ((p.threads .cache).pc = .failed) ∧
    p.shared.segments = c.segments
  := by
  simp [run, Pool.step, session, handleRequest, sessionStart, HandleRequest.start, txMq, hc.ctrl,
    mqMaxmsg, performTask, hc.running, Task.start, rxMq, Task.request]

/-- A file whose length is a multiple of `2 ^ 32` ends the cache. -/
theorem Asks.lookup_failed (hask : Asks get num size i file req)
    (hmod : file.length % 2 ^ 32 = 0) :
  ((Task.request req : Task n).lookup get num size).pc = .failed
  := by
  have hthr : (Task.request req : Task n).thrPkt = req := rfl
  unfold Task.lookup Task.fill
  simp only [hthr, hask.segment, hask.found, hmod]
  rfl

/-- For any other length the cache answers with a number in the range of an `int`. -/
theorem Asks.lookup_hit (hask : Asks get num size i file req)
    (hmod : file.length % 2 ^ 32 ≠ 0) :
  ((Task.request req : Task n).lookup get num size).pc = .hit ∧
    ((Task.request req : Task n).lookup get num size).seg = some i ∧
    ((Task.request req : Task n).lookup get num size).thrPkt.fileSize < 2 ^ 31
  := by
  have hthr : (Task.request req : Task n).thrPkt = req := rfl
  have hpos : file.length % 2 ^ 32 > 0 := Nat.pos_of_ne_zero hmod
  unfold Task.lookup Task.fill
  simp only [hthr, hask.segment, hask.found, if_pos hpos]
  refine ⟨trivial, trivial, ?_⟩
  have hlt := Int.bmod_lt (x := strtol (signedDecimal
    (((file.length % 2 ^ 32 : ℕ) : ℤ).bmod (2 ^ 32)))) (m := 2 ^ 32) (by decide)
  have hhalf : (((2 ^ 32 : ℕ) : ℤ) + 1) / 2 = 2 ^ 31 := by decide
  rw [hhalf] at hlt
  exact hlt

/-- A length that does not fit is not served as it is. -/
theorem Asks.not_trueSize {c : Channels n size} (hask : Asks get num size i file req)
    (hc : Quiet c i) (hlen : file.length = 0 ∨ 2 ^ 31 ≤ file.length) :
  ¬ TrueSize get num i file.length (sessionStart c req pkt)
  := by
  intro ⟨_, htrue⟩
  obtain ⟨p, hrun, hcache, hexited, hseg⟩ := run_lookup get num req pkt hc
  have hrunning := (htrue _ p hrun).running
  by_cases hmod : file.length % 2 ^ 32 = 0
  · rw [hexited, hcache, hask.lookup_failed hmod] at hrunning
    cases hrunning
  · obtain ⟨hpc, hi, hlt⟩ := hask.lookup_hit hmod
    rw [← hcache] at hpc hi hlt
    have hempty : (p.shared.segments i).cacheToProxy = [] := by
      rw [hseg]
      exact hc.toProxy
    -- The cache sends its answer, in which the length is another one.
    have hsome : (performTask get num 1 p.shared (p.threads .cache)).isSome = true :=
      performTask_isSome hrunning hi (by simp [hpc]) (by simp [hpc]) (by simp [hpc])
        (by simp [hempty, mqMaxmsg]) (by simp [hpc]) (by simp [hpc])
    have hstep : (Pool.step (session get num i) ⟨.cache, (0 : ℕ)⟩ p).isSome = true :=
      Pool.step_isSome hsome
    obtain ⟨p', hp'⟩ := Option.isSome_iff_exists.mp hstep
    have hrun' := run_append.mpr ⟨p, hrun, run_cons.mpr ⟨p', hp', run_nil p'⟩⟩
    obtain ⟨-, hw⟩ := performTask_cases (Pool.step_own hp')
    obtain ⟨j, seg', hj, hstep, -, hc'⟩ := hw.of_body (by simp [hpc]) (by simp [hpc])
    rw [hi] at hj
    cases hj
    have hmem : (p.threads .cache).thrPkt ∈ (p'.shared.segments i).cacheToProxy := by
      rw [hc']
      simp only [Channels.set_self]
      rw [hstep.of_hit hpc, hempty]
      exact List.mem_singleton_self _
    have hfs := ((htrue _ p' hrun').answers _ hmem).2
    obtain h0 | hbig := hlen
    · rw [h0] at hmod
      exact hmod rfl
    · omega

/-- For every file in the cache, of any length: a request for it is served with the true length
if and only if the length is positive and fits into an `int`. -/
theorem trueSize_iff {c : Channels n size} (hask : Asks get num size i file req)
    (hc : Quiet c i) :
  TrueSize get num i file.length (sessionStart c req pkt) ↔
    1 ≤ file.length ∧ file.length ≤ 2 ^ 31 - 1
  := by
  constructor
  · intro htrue
    by_contra hlen
    exact hask.not_trueSize hc (by omega) htrue
  · intro ⟨hpos, hle⟩
    have hreq : Requests get num size i file req := ⟨hask, hpos, by omega⟩
    constructor
    · use 6 * file.length + 9
      intro as p h
      exact (session_lockStep hreq hc h).2.1
    · intro as p h
      exact (Session.run hreq hc h).sized hreq

/-- A file of one byte is served with its true length. -/
theorem trueSize_iff_one :
  TrueSize (fun _ => some [7]) 0 0 1
      (sessionStart (Channels.init : Channels 1 4) ⟨⟨[47], 0, 0, 0, 0, 0⟩, 0⟩ ⟨⟨[], 0, 0, 0, 0, 0⟩, 0⟩) ↔
    1 ≤ 1 ∧ 1 ≤ 2 ^ 31 - 1
  := by
  have hask : Asks (fun _ => some [7]) 0 4 (0 : Fin 1) [7] ⟨⟨[47], 0, 0, 0, 0, 0⟩, 0⟩ :=
    ⟨by decide, rfl, rfl⟩
  exact trueSize_iff hask ⟨rfl, rfl, rfl, rfl⟩

/-- A request for an empty file ends the cache. -/
theorem not_trueSize_empty :
  ¬ TrueSize (fun _ => some []) 0 0 0
      (sessionStart (Channels.init : Channels 1 4) ⟨⟨[47], 0, 0, 0, 0, 0⟩, 0⟩ ⟨⟨[], 0, 0, 0, 0, 0⟩, 0⟩)
  := by
  intro ⟨_, htrue⟩
  have hstate := htrue [⟨.proxy, (0 : ℤ)⟩, ⟨.cache, (0 : ℕ)⟩, ⟨.cache, (0 : ℕ)⟩] _ rfl
  have hrunning := hstate.running
  cases hrunning

end GetFile.Cache
