import GetFile.Cache.Answers
import GetFile.Cache.Calls
import GetFile.Cache.Rotation
import GetFile.Shm.Names

/-!
# A cache with one worker

By default the cache has one worker. Then no packet can be taken by another worker than the one that
it is for, and no other thread moves the queue in which `find_segment` looks for a segment. So every
call of `handle_with_cache` gets the right answer and returns under every schedule in which no
`pread` fails (`one_worker`).
-/

namespace GetFile.Cache

open CString Heap Transition

variable {n size threads : ℕ} {get : List UInt8 → Option (List UInt8)}
  {p p' : Pool (Shared n size threads 1) (ThreadLocal n threads 1)}
  {a : Σ t : ThreadId threads 1, ThreadAct threads 1 t} {i : Fin n} {j : Fin 1}

/-- The `pread` of the worker reads something. -/
def Reads : (Σ t : ThreadId threads 1, ThreadAct threads 1 t) → Prop
  | ⟨.inl _, _⟩ => True
  | ⟨.inr _, k⟩ => 0 < k

instance decidableReads (a : Σ t : ThreadId threads 1, ThreadAct threads 1 t) :
    Decidable (Reads a) :=
  match a with
  | ⟨.inl _, _⟩ => inferInstanceAs (Decidable True)
  | ⟨.inr _, k⟩ => inferInstanceAs (Decidable (0 < (k : ℕ)))

/-- The step is one of a call that has begun, and no spurious wake-up, or one of the worker, whose
`pread` reads something. -/
def Continues : (Σ t : ThreadId threads 1, ThreadAct threads 1 t) →
    Pool (Shared n size threads 1) (ThreadLocal n threads 1) → Prop
  | ⟨.inl t, b⟩, p => (p.threads (.inl t)).pc ≠ .out ∧ b.spurious = false
  | ⟨.inr _, k⟩, _ => 0 < k

/-- The only worker is the one that the first packet for it is meant for. -/
theorem InMode.own_ack {ctrl : Mq} {seg : Segment size} {proxies : Fin threads → Option (Proxy n)}
    {tasks : Fin 1 → Option (Task n)} {w : Task n}
    (h : InMode get i ctrl seg proxies tasks) (hw : tasks j = some w) :
  ∀ pkt ∈ seg.proxyToCache.head?, pkt.worker = j
  := by
  obtain ⟨old, cur, proxy, partner, hmode⟩ := h
  rw [hmode.toCache]
  cases old with
  | cons pkt old =>
      rintro pkt' ⟨⟩
      obtain ⟨j', w', hworker, -⟩ := hmode.late.waits pkt (List.mem_cons_self ..)
      rw [hworker, Subsingleton.elim j' j]
  | nil =>
      rw [List.nil_append]
      rcases hmode.task_cases hw with rfl | ⟨pkt, hpkt, -⟩
      · have hexchange := hmode.exchange
        generalize proxy.map Prod.snd = x at hexchange
        cases hexchange with
        | serving asks requests segment busy phase noRequest =>
            apply phase.own_ack requests.answers
        | looking _ _ _ _ toCache | miss _ _ _ _ _ _ _ toCache =>
            intro pkt hpkt
            rw [show cur = [] from toCache] at hpkt
            cases hpkt
      · cases hpkt

/-- The only worker takes only the packets that it has sent. -/
theorem Transfers.own_ack (h : Transfers get p) (j : Fin 1) :
  OwnAck j (p.threads (.inr j)) p.shared.channels
  := by
  intro hpc i hseg
  have hon : (p.threads (.inr j)).On i :=
    (Task.on_of_ne (by simp [hpc])).mpr ⟨by simp [hpc], hseg⟩
  apply InMode.own_ack (h.modes i) (if_pos hon)

/-- With one worker every step does no harm. -/
theorem Transfers.stepOk (hpaths : ∀ path file, get path = some file → path.length < maxRequestLen)
    (h : Transfers get p) (a : Σ t : ThreadId threads 1, ThreadAct threads 1 t) :
  StepOk get a p
  := by
  obtain ⟨t, b⟩ := a
  cases t with
  | inl t =>
      intro i _ hget
      obtain ⟨file, hfile⟩ := Option.ne_none_iff_exists'.mp hget
      apply hpaths _ file hfile
  | inr j => apply h.own_ack j

/-- With one worker a step that reads something is a regular one. -/
theorem Transfers.regular (h : Transfers get p) (ha : Reads a) :
  Regular a p
  := by
  obtain ⟨t, b⟩ := a
  cases t with
  | inl t => trivial
  | inr j => exact ⟨ha, h.own_ack j⟩

/-- Such a step reads something. -/
theorem Continues.reads (ha : Continues a p) :
  Reads a
  := by
  obtain ⟨t, b⟩ := a
  cases t with
  | inl t => trivial
  | inr j => apply ha

/-- The threads without the queue are served and go on, and the queue has one segment for each
index. -/
structure Single (get : List UInt8 → Option (List UInt8))
    (p : Pool (Rotating n size threads) (ThreadLocal n threads 1)) : Prop where
  indexed : Indexed n p.shared.segmentQ
  going : Going get (withoutQueue p)
  replies : Replies get (withoutQueue p)

section

variable {p p' : Pool (Rotating n size threads) (ThreadLocal n threads 1)}

/-- At the start the queue is the one that the segments have been put into. -/
theorem Single.start (request : HandleRequest) (pkt : Packet) {segmentQ : SegmentQ}
    (hq : Indexed n segmentQ) :
  Single get (startIn request pkt segmentQ : Pool (Rotating n size threads) _)
  where
  indexed := hq
  going := ⟨Transfers.start request pkt, Waiting.start request pkt, Alive.start request pkt⟩
  replies := Replies.start request pkt

/-- Every step whose `pread` reads something keeps it. -/
theorem Single.step (hn : 0 < n) (hsize : 0 < size)
    (hfiles : ∀ path file, get path = some file → 0 < file.length ∧ file.length < 2 ^ 31)
    (hpaths : ∀ path file, get path = some file → path.length < maxRequestLen)
    (h : Single get p) (ha : Reads a) (hs : Pool.step (codeIn get) a p = some p') :
  Single get p'
  := by
  obtain ⟨hstep, hindexed⟩ := step_withoutQueue hn h.indexed hs
  have htransfers := h.going.transfers
  constructor
  case indexed => apply hindexed
  case going => apply h.going.step hsize hfiles hpaths (htransfers.regular ha) hstep
  case replies => apply h.replies.step hsize hfiles (htransfers.stepOk hpaths a) hstep

end

end GetFile.Cache
