import GetFile.CString.Scanf
import GetFile.CString.Strsep
import GetFile.Workers.Minify
import Mathlib.Algebra.Group.Nat.Even

/-!
# The workload of the RPC client

`load_requests` of the client that minifies images reads the names of a workload file two at a
time and fills the queue that the threads in `worker_main` empty. Its loop ends at the end of the
file only when `fscanf` has read no token at all, so that the queue holds the pairs of the tokens
exactly when none is left over (`loadRequests_pairs_iff`).
-/

namespace GetFile.Minify

open CString

/-- The size of the arrays for the names. -/
def nameSize : ℕ := 256

/-- A `request_t` in memory. -/
structure Block where
  inputfilename : Buffer nameSize
  outputfilename : Buffer nameSize

/-- The names of a request, as `worker_main` reads them. -/
def Block.request (block : Block) : Request :=
  ⟨block.inputfilename.string 0, block.outputfilename.string 0⟩

/-- The queue of the requests, the request `req` that is being read, and what stands in the blocks
that `malloc` returns one after the other. -/
structure Loading where
  queue : Steque ℕ
  req : ℕ
  blocks : ℕ → Block

/-- The requests in the queue. -/
def Loading.requests (l : Loading) : Steque Request :=
  l.queue.map fun p => (l.blocks p).request

/-- What the conversion `%s` writes into an array. There is no result when it writes behind it. -/
def assign (name : Buffer nameSize) : Option (List UInt8) → Option (Buffer nameSize)
  | none => some name
  | some word =>
    if word.length < nameSize then some ((name.store 0 word).terminate word.length) else none

/-- What `fscanf` writes into the request `req`. -/
def Loading.fill (l : Loading) (scanned : Scanned) : Option Loading :=
  (assign (l.blocks l.req).inputfilename scanned.first).bind fun inputfilename =>
    (assign (l.blocks l.req).outputfilename scanned.second).map fun outputfilename =>
      { l with blocks := Function.update l.blocks l.req ⟨inputfilename, outputfilename⟩ }

/-- `steque_enqueue(&queue, req)` and the next `malloc`. -/
def Loading.enqueue (l : Loading) : Loading :=
  { l with queue := l.queue.enqueue l.req, req := l.req + 1 }

/-- The loop of `load_requests`, for at most the given number of rounds. -/
def loadLoop : ℕ → Loading → List UInt8 → Option Loading
  | 0, _, _ => none
  | rounds + 1, l, text =>
    (l.fill (scanPair text)).bind fun l =>
      if (scanPair text).returned ≠ eof then loadLoop rounds l.enqueue (scanPair text).rest
      else some l

/-- `load_requests`, once the workload file is open. Each round but the last reads a byte. -/
def loadRequests (memory : ℕ → Block) (text : List UInt8) : Option Loading :=
  loadLoop (text.length + 1) ⟨Steque.init, 0, memory⟩ text

/-- The complete consecutive pairs of tokens. -/
def pairs : List (List UInt8) → List Request
  | input :: output :: rest => ⟨input, output⟩ :: pairs rest
  | _ => []

/-- The requests that the loop makes of the tokens, from the block `n` on: one of two tokens each,
and one more of a last single token and of what stood in the memory before. -/
def made (memory : ℕ → Block) : ℕ → List (List UInt8) → List Request
  | n, input :: output :: rest => ⟨cstr input, cstr output⟩ :: made memory (n + 1) rest
  | n, [input] => [⟨cstr input, (memory n).outputfilename.string 0⟩]
  | _, [] => []

variable {memory : ℕ → Block} {l : Loading} {text : List UInt8}

/-! ### One round -/

/-- The requests that are still to be read are as `malloc` returns them, and not in the queue. -/
structure Fresh (memory : ℕ → Block) (l : Loading) : Prop where
  blocks : ∀ p, l.req ≤ p → l.blocks p = memory p
  queue : ∀ p ∈ l.queue, p < l.req

/-- A token that fits is the name that is read back, up to its first zero. -/
theorem assign_some (name : Buffer nameSize) {word : List UInt8} (hshort : word.length < nameSize) :
  ∃ name', assign name (some word) = some name' ∧ name'.string 0 = cstr word
  := ⟨_, if_pos hshort, (holds_store name hshort).string_eq⟩

/-- Filling the next request leaves the requests in the queue. -/
theorem Fresh.requests_fill (h : Fresh memory l) (block : Block) :
  Loading.requests { l with blocks := Function.update l.blocks l.req block } = l.requests
  := by
  apply List.map_congr_left
  intro p hp
  dsimp only
  rw [Function.update_of_ne (Nat.ne_of_lt (h.queue p hp))]

/-- A request that has been filled is added to the queue. -/
theorem Fresh.enqueue (h : Fresh memory l) (block : Block) :
  let l' := { l with blocks := Function.update l.blocks l.req block }.enqueue
  Fresh memory l' ∧ l'.requests = l.requests ++ [block.request]
  := by
  refine ⟨⟨?_, ?_⟩, ?_⟩
  · intro p hp
    have hne : p ≠ l.req := Nat.ne_of_gt hp
    exact (Function.update_of_ne hne _ _).trans (h.blocks p (Nat.le_of_succ_le hp))
  · intro p hp
    rcases List.mem_append.mp hp with hp | hp
    · exact Nat.lt_succ_of_lt (h.queue p hp)
    · rw [List.mem_singleton.mp hp]
      exact Nat.lt_succ_self _
  · have hfill := h.requests_fill block
    rw [Loading.requests] at hfill
    simp only [Loading.requests, Loading.enqueue, Steque.enqueue, List.map_append,
      List.map_singleton, Function.update_self] at hfill ⊢
    rw [hfill]

/-! ### The whole loop -/

/-- Within as many rounds as the text has bytes, and one more for the end of the file, the loop
comes to an end and has added to the queue what it makes of the tokens. -/
theorem loadLoop_spec {rounds : ℕ} (h : Fresh memory l) (hrounds : text.length < rounds)
    (hshort : ∀ t ∈ tokens text, t.length < nameSize) :
  ∃ l', loadLoop rounds l text = some l' ∧
    l'.requests = l.requests ++ made memory l.req (tokens text)
  := by
  induction rounds generalizing l text with
  | zero => cases hrounds
  | succ rounds ih =>
      have hspec := scanPair_spec text
      have hreq := h.blocks l.req le_rfl
      rw [loadLoop]
      generalize scanPair text = scanned at hspec ⊢
      cases hspec with
      | nothing empty =>
          refine ⟨_, rfl, ?_⟩
          rw [h.requests_fill, empty, made, List.append_nil]
      | @single word single =>
          obtain ⟨name, hassign, hname⟩ := assign_some (l.blocks l.req).inputfilename
            (hshort word (by simp [single]))
          have hne : text ≠ [] := by
            rintro rfl
            cases single
          have hpos := List.length_pos_iff.mpr hne
          obtain ⟨hfresh, hrequests⟩ := h.enqueue ⟨name, (l.blocks l.req).outputfilename⟩
          obtain ⟨l', hloop, hl'⟩ := @ih _ [] hfresh (by simp; omega) (by simp [tokens])
          refine ⟨l', ?_, ?_⟩
          · rw [Loading.fill, hassign]
            exact hloop
          · rw [hl', hrequests, single, made, Block.request, hname, hreq]
            simp [tokens, made]
      | @pair first second rest split shorter =>
          obtain ⟨input, hinput, hfirst⟩ := assign_some (l.blocks l.req).inputfilename
            (hshort first (by simp [split]))
          obtain ⟨output, houtput, hsecond⟩ := assign_some (l.blocks l.req).outputfilename
            (hshort second (by simp [split]))
          obtain ⟨hfresh, hrequests⟩ := h.enqueue ⟨input, output⟩
          obtain ⟨l', hloop, hl'⟩ := @ih _ rest hfresh (by omega)
            (fun t ht => hshort t (by simp [split, ht]))
          refine ⟨l', ?_, ?_⟩
          · rw [Loading.fill, hinput, houtput]
            exact hloop
          · rw [hl', hrequests, split, made, Block.request, hfirst, hsecond, List.append_assoc]
            rfl

/-- What the loop makes of the tokens are their pairs exactly when no token is left over and none
has a zero. -/
theorem made_eq_pairs_iff (memory : ℕ → Block) (n : ℕ) (ts : List (List UInt8)) :
  made memory n ts = pairs ts ↔ Even ts.length ∧ ∀ t ∈ ts, (0 : UInt8) ∉ t
  := by
  induction ts using pairs.induct generalizing n with
  | case1 input output rest ih =>
      rw [made, pairs, List.cons.injEq, ih, Request.mk.injEq, cstr_eq_self_iff, cstr_eq_self_iff]
      simp only [List.length_cons, Nat.even_add_one, not_not, List.mem_cons, forall_eq_or_imp]
      tauto
  | case2 ts hts =>
      cases ts with
      | nil => simp [made, pairs]
      | cons input ts =>
          cases ts with
          | nil => simp [made, pairs]
          | cons output rest => exact absurd rfl (hts input output rest)

/-- For every text whose tokens have fewer than 256 bytes and whatever stands in the memory that
`malloc` returns: `load_requests` comes to its end, and the requests in the queue are the complete
consecutive pairs of tokens in their order exactly when the number of tokens is even and none of
them has a zero. -/
theorem loadRequests_pairs_iff (memory : ℕ → Block) (text : List UInt8)
    (hshort : ∀ t ∈ tokens text, t.length < 256) :
  ∃ l, loadRequests memory text = some l ∧
    (l.requests = pairs (tokens text) ↔
      Even (tokens text).length ∧ ∀ t ∈ tokens text, (0 : UInt8) ∉ t)
  := by
  have hfresh : Fresh memory ⟨Steque.init, 0, memory⟩ := by
    constructor
    · intro p _
      rfl
    · intro p hp
      cases hp
  obtain ⟨l, hloop, hl⟩ := loadLoop_spec hfresh (Nat.lt_succ_self _) hshort
  refine ⟨l, hloop, ?_⟩
  rw [hl]
  apply made_eq_pairs_iff

theorem loadRequests_pairs_iff_twoPairs :
  ∃ l, loadRequests (fun _ => ⟨.zero _, .zero _⟩) (ascii "a.jpg b.jpg\nc.jpg d.jpg\n") = some l ∧
    (l.requests = pairs (tokens (ascii "a.jpg b.jpg\nc.jpg d.jpg\n")) ↔
      Even (tokens (ascii "a.jpg b.jpg\nc.jpg d.jpg\n")).length ∧
        ∀ t ∈ tokens (ascii "a.jpg b.jpg\nc.jpg d.jpg\n"), (0 : UInt8) ∉ t)
  := loadRequests_pairs_iff _ _ (by decide)

/-- Memory in which a name has been left. -/
def oldMemory : ℕ → Block :=
  fun _ => ⟨.zero _, (Buffer.zero _).store 0 (ascii "old")⟩

/-- A token that is left over makes a request with a name that is not from the file. -/
theorem loadRequests_leftOver :
  (loadRequests oldMemory (ascii "a b c")).map Loading.requests =
      some [⟨ascii "a", ascii "b"⟩, ⟨ascii "c", ascii "old"⟩] ∧
    ¬ ∃ l, loadRequests oldMemory (ascii "a b c") = some l ∧
      l.requests = pairs (tokens (ascii "a b c"))
  := by
  have hrun : (loadRequests oldMemory (ascii "a b c")).map Loading.requests =
      some [⟨ascii "a", ascii "b"⟩, ⟨ascii "c", ascii "old"⟩] := by
    decide +kernel
  refine ⟨hrun, ?_⟩
  rintro ⟨l, hl, hpairs⟩
  rw [hl, Option.map_some, hpairs] at hrun
  revert hrun
  decide

end GetFile.Minify
