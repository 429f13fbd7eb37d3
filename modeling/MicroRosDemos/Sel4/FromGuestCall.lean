import MicroRosDemos.Sel4.FromGuestInv
import MicroRosDemos.Spsc.Turns

/-!
# From the guest to ping_pong: a read under way

What is known at each place of a read while the VMM pushes nothing (`During`): the
packets that the read has passed over were for somebody else, and the one it
answers is the first for the node. Every step keeps it (`step_during`), those
of the VMM because a read does not see them.
-/

namespace MicroRosDemos.Sel4.FromGuest

open MicroRosDemos.Lib MicroRosDemos.Net MicroRosDemos.Spsc

variable {Q : Type} {hdrs : TxHdrs} {N : NetRing Q} {c : Word}
variable {contents : Q → List NetBuffDesc} {capacity : Nat} {offsets : List Nat}

/-- The packets in the queue: the blocks pushed and not popped. -/
def State.queued (s : State Q) : List (List Byte) := (s.ring.pushed.drop s.ring.popped).map Prod.snd

/-- While a read is under way the VMM pushes nothing, and ping_pong does nothing
else. What the VMM does otherwise, a fault with frames that fit included, goes on. -/
def Quiet (s : State Q) : Act → Prop
  | .vmm => s.ring.producer.publishes = false
  | .guestFrame frame => frame.length ≤ 2048
  | .fault | .handled _ | .read => True
  | .empty | .call _ _ => False

instance (s : State Q) (a : Act) : Decidable (Quiet s a) :=
  match a with
  | .vmm => inferInstanceAs (Decidable (_ = _))
  | .guestFrame frame => inferInstanceAs (Decidable (frame.length ≤ 2048))
  | .fault | .handled _ | .read => inferInstanceAs (Decidable True)
  | .empty | .call _ _ => inferInstanceAs (Decidable False)

instance (s : State Q) (a : Act) : Decidable (FramesFit s a) :=
  match a with
  | .guestFrame frame => inferInstanceAs (Decidable (frame.length ≤ 2048))
  | .fault | .handled _ | .vmm | .empty | .call _ _ | .read => inferInstanceAs (Decidable True)

theorem Quiet.fit {s : State Q} {a : Act} (h : Quiet s a) : FramesFit s a := by
  cases a with
  | guestFrame frame => exact h
  | _ => trivial

/-- A turn of ping_pong. -/
def Act.isRead : Act → Bool
  | .read => true
  | _ => false

/-- The payload length that a packet states. -/
def statedLen (packet : List Byte) : BitVec 64 := getPayloadLen (Mem.ofList packet) 0

/-- What a read makes of a packet for the node: 0 when the stated length is more
than `len`, or else that many bytes, which are the payload as far as the block
reaches. -/
def Answers (packet : List Byte) (r : ReadResult) : Prop :=
  if r.call.len < statedLen packet then r.ret = 0 ∧ r.after = r.before
  else r.ret = statedLen packet ∧ ∃ bs, bs.length = (statedLen packet).toNat ∧
    bs.take 2006 = (packet.drop 42).take (statedLen packet).toNat ∧
    r.after = r.before.write r.call.buf bs

/-- The packets before these were for somebody else. -/
def Behind (hdrs : TxHdrs) (s : State Q) (rest : List (List Byte)) : Prop :=
  ∃ others, s.queued = others ++ rest ∧ ∀ packet ∈ others, addressed hdrs packet = false

/-- The first packet for the node, and those behind it. -/
def First (hdrs : TxHdrs) (s : State Q) (packet : List Byte) (rest : List (List Byte)) : Prop :=
  Behind hdrs s (packet :: rest) ∧ addressed hdrs packet = true

/-- What is known at each place of a read that was called in `s`, the caller's
memory being `node`: of the packets still queued, of the caller's memory now,
and of the results. -/
def Place (hdrs : TxHdrs) (s : State Q) (call : ReadCall) (node : Mem) (queued : List (List Byte))
    (now : Mem) (results : List ReadResult) : ReadPc → Prop
  | .front c | .filter c => c = call ∧ now = node ∧ results = s.results ∧ Behind hdrs s queued
  | .skip c => c = call ∧ now = node ∧ results = s.results ∧
    ∃ packet rest, queued = packet :: rest ∧ Behind hdrs s rest
  | .getPayload c | .getPayloadLen c => c = call ∧ now = node ∧ results = s.results ∧
    ∃ packet rest, queued = packet :: rest ∧ First hdrs s packet rest
  | .copy c payloadLen => c = call ∧ now = node ∧ results = s.results ∧
    ∃ packet rest, queued = packet :: rest ∧ First hdrs s packet rest ∧
      payloadLen = statedLen packet ∧ ¬ c.len < payloadLen
  | .finish c ret => c = call ∧ results = s.results ∧
    ∃ packet rest, queued = packet :: rest ∧ First hdrs s packet rest ∧
      Answers packet ⟨call, ret, node, now⟩
  | .idle => ∃ packet ret, First hdrs s packet queued ∧
    results = s.results ++ [⟨call, ret, node, now⟩] ∧ Answers packet ⟨call, ret, node, now⟩
  | .empty | .assertFailed => False

/-- A read that was called in `s` is under way in `t`, or back. -/
structure During (hdrs : TxHdrs) (s : State Q) (call : ReadCall) (node : Mem) (t : State Q) :
    Prop where
  pushed : t.ring.pushed = s.ring.pushed
  nodeAtCall : t.nodeAtCall = node
  fresh : t.ring.Fresh
  place : Place hdrs s call node t.queued t.node t.results t.read

/-! ## The packet in hand -/

/-- The packet at the front, seen through the memory as it is now. -/
theorem front_packet {s : State Q} (h : Inv c contents offsets s) {p : Nat}
    (hget : s.ring.pushed[s.ring.popped]? = some (p, s.ring.mem.read p s.ring.size)) :
    ∃ packet rest, s.queued = packet :: rest ∧ packet.length = 2048 ∧
      s.ring.mem.read p packet.length = packet := by
  refine ⟨_, (s.ring.pushed.drop (s.ring.popped + 1)).map Prod.snd, ?_, Mem.read_length _ p 2048,
    by rw [Mem.read_length]⟩
  obtain ⟨hlt, hentry⟩ := List.getElem?_eq_some_iff.mp hget
  rw [State.queued, List.drop_eq_getElem_cons hlt, hentry, List.map_cons, h.size]

/-- The packet that the read holds is the one at the front. -/
theorem holding_packet {s : State Q} (h : Inv c contents offsets s) {p : Nat} {content : List Byte}
    (hp : s.ring.consumer = .holding p content) {packet : List Byte} {rest : List (List Byte)}
    (hqueued : s.queued = packet :: rest) :
    packet.length = 2048 ∧ s.ring.mem.read p packet.length = packet := by
  obtain ⟨packet', rest', hqueued', hlen, hread⟩ := front_packet h (h.ring.holding_block hp)
  cases hqueued.symm.trans hqueued'
  exact ⟨hlen, hread⟩

/-- A pop takes the packet at the front. -/
theorem queued_pop {s t : State Q} {packet : List Byte} {rest : List (List Byte)}
    (hqueued : s.queued = packet :: rest) (hpushed : t.ring.pushed = s.ring.pushed)
    (hpopped : t.ring.popped = s.ring.popped + 1) : t.queued = rest := by
  have htail := congrArg List.tail hqueued
  rw [State.queued, ← List.map_tail, List.tail_drop] at htail
  rw [State.queued, hpushed, hpopped]
  exact htail

theorem Behind.next {s : State Q} {packet : List Byte} {rest : List (List Byte)}
    (h : Behind hdrs s (packet :: rest)) (hother : addressed hdrs packet = false) :
    Behind hdrs s rest := by
  obtain ⟨others, hqueued, hall⟩ := h
  exact ⟨others ++ [packet], by rw [hqueued, List.append_assoc]; rfl, forall_mem_grown.mpr ⟨hall, hother⟩⟩

theorem answers_dropped {packet : List Byte} {call : ReadCall} {node : Mem}
    (h : call.len < statedLen packet) : Answers packet ⟨call, 0, node, node⟩ := by
  unfold Answers
  rw [if_pos h]
  exact ⟨rfl, rfl⟩

/-- The bytes copied from a packet at `p` are the payload as far as the block reaches. -/
theorem answers_copied {packet : List Byte} {call : ReadCall} {node m : Mem} {p : Nat}
    (h : ¬ call.len < statedLen packet) (hlen : packet.length = 2048)
    (hread : m.read p packet.length = packet) :
    Answers packet ⟨call, statedLen packet, node,
      node.write call.buf (m.read (getPayload p) (statedLen packet).toNat)⟩ := by
  have hpayload : packet.drop 42 = m.read (getPayload p) 2006 := by
    rw [hlen] at hread
    rw [← hread, Mem.read_drop _ _ _ (by omega)]
    rfl
  unfold Answers
  rw [if_neg h]
  exact ⟨rfl, _, Mem.read_length _ _ _, by rw [hpayload, Mem.read_take_comm], rfl⟩

/-! ## Every step of a read -/

theorem ReadMove.place {s t u : State Q} {call : ReadCall} {node : Mem}
    (hinv : Inv c contents offsets t) (h : During hdrs s call node t) (hmove : ReadMove hdrs t u) :
    Place hdrs s call node u.queued u.node u.results u.read := by
  obtain ⟨_, hnode, _, hplace⟩ := h
  cases hmove with
  | inside ring hring hphase hpopped =>
    have hqueued : State.queued { t with ring } = t.queued := by
      rw [State.queued, State.queued, hpopped, (consumerStep_frame hring).2.2.1]
    rw [hqueued]
    exact hplace
  | looked empty hr =>
    rw [hr] at hplace
    exact hplace.elim
  | handed k p ring hr hring hp hpopped =>
    have hqueued : State.queued { t with ring, read := .filter k } = t.queued := by
      rw [State.queued, State.queued, hpopped, (consumerStep_frame hring).2.2.1]
    rw [hr] at hplace
    rw [hqueued]
    exact hplace
  | accepted k p hr hp hme =>
    rw [hr] at hplace
    obtain ⟨hk, hnow, hresults, hbehind⟩ := hplace
    obtain ⟨packet, rest, hqueued, hlen, hread⟩ := front_packet hinv (hinv.ring.front_block hp)
    rw [isAddressedToMe_of_read hread (by omega)] at hme
    rw [hqueued] at hbehind
    exact ⟨hk, hnow, hresults, packet, rest, hqueued, hbehind, hme⟩
  | refused k p hr hp hme =>
    rw [hr] at hplace
    obtain ⟨hk, hnow, hresults, hbehind⟩ := hplace
    obtain ⟨packet, rest, hqueued, hlen, hread⟩ := front_packet hinv (hinv.ring.front_block hp)
    rw [isAddressedToMe_of_read hread (by omega)] at hme
    rw [hqueued] at hbehind
    exact ⟨hk, hnow, hresults, packet, rest, hqueued, hbehind.next hme⟩
  | skipped k ring hr hring hp hpopped =>
    rw [hr] at hplace
    obtain ⟨hk, hnow, hresults, packet, rest, hqueued, hbehind⟩ := hplace
    refine ⟨hk, hnow, hresults, ?_⟩
    rw [queued_pop hqueued (consumerStep_frame hring).2.2.1 hpopped]
    exact hbehind
  | assertFailed p content hr hp hudp =>
    -- the filter has accepted the packet, so it is a UDP packet
    exfalso
    have hfirst : ∃ packet rest, t.queued = packet :: rest ∧ First hdrs s packet rest := by
      rcases hr with ⟨k, hr⟩ | ⟨k, hr⟩ <;> rw [hr] at hplace <;> exact hplace.2.2.2
    obtain ⟨packet, rest, hqueued, _, hme⟩ := hfirst
    obtain ⟨hlen, hread⟩ := holding_packet hinv hp hqueued
    rw [isUdp_of_addressed ((isAddressedToMe_of_read hread (by omega)).trans hme)] at hudp
    cases hudp
  | payload k hr =>
    rw [hr] at hplace
    exact hplace
  | dropped k p content hr hp hlen =>
    rw [hr] at hplace
    obtain ⟨rfl, hnow, hresults, packet, rest, hqueued, hfirst⟩ := hplace
    obtain ⟨hsize, hread⟩ := holding_packet hinv hp hqueued
    rw [getPayloadLen_eq_of_read hread (by omega)] at hlen
    refine ⟨rfl, hresults, packet, rest, hqueued, hfirst, ?_⟩
    rw [hnow]
    exact answers_dropped hlen
  | kept k p content hr hp hlen =>
    rw [hr] at hplace
    obtain ⟨rfl, hnow, hresults, packet, rest, hqueued, hfirst⟩ := hplace
    obtain ⟨hsize, hread⟩ := holding_packet hinv hp hqueued
    exact ⟨rfl, hnow, hresults, packet, rest, hqueued, hfirst,
      getPayloadLen_eq_of_read hread (by omega), hlen⟩
  | copied k payloadLen p content hr hp =>
    rw [hr] at hplace
    obtain ⟨rfl, hnow, hresults, packet, rest, hqueued, hfirst, hstated, hlen⟩ := hplace
    obtain ⟨hsize, hread⟩ := holding_packet hinv hp hqueued
    refine ⟨rfl, hresults, packet, rest, hqueued, hfirst, ?_⟩
    rw [hnow, hstated]
    exact answers_copied (hstated ▸ hlen) hsize hread
  | finished k ret ring hr hring hp hpopped =>
    rw [hr] at hplace
    obtain ⟨rfl, hresults, packet, rest, hqueued, hfirst, hanswers⟩ := hplace
    refine ⟨packet, ret, ?_, ?_, hanswers⟩
    · rw [queued_pop hqueued (consumerStep_frame hring).2.2.1 hpopped]
      exact hfirst
    · rw [hresults, hnode]

theorem readStep_during {s t u : State Q} {call : ReadCall} {node : Mem}
    (hinv : Inv c contents offsets t) (h : During hdrs s call node t)
    (hstep : readStep hdrs t = some u) : During hdrs s call node u := by
  have hmove := readStep_move hinv.read hstep
  refine ⟨?_, ?_, ?_, hmove.place hinv h⟩
  · rw [← h.pushed]
    cases hmove with
    | inside ring hring | handed k p ring hr hring | skipped k ring hr hring
    | finished k ret ring hr hring => exact (consumerStep_frame hring).2.2.1
    | _ => rfl
  · rw [← h.nodeAtCall]
    cases hmove <;> rfl
  · cases hmove with
    | inside ring hring | handed k p ring hr hring | finished k ret ring hr hring =>
      exact consumerStep_fresh hring
    | assertFailed | payload | kept => exact h.fresh
    | _ => trivial

/-! ## Steps that a read does not see -/

/-- Nothing that a read depends on has changed. -/
structure Unseen (s t : State Q) : Prop where
  pushed : t.ring.pushed = s.ring.pushed
  popped : t.ring.popped = s.ring.popped
  turns : t.ring.turns = s.ring.turns
  fresh : s.ring.Fresh → t.ring.Fresh
  read : t.read = s.read
  node : t.node = s.node
  nodeAtCall : t.nodeAtCall = s.nodeAtCall
  results : t.results = s.results

theorem FaultMove.unseen {s t : State Q} (hquiet : s.ring.producer.publishes = false)
    (hmove : FaultMove N s t) : Unseen s t := by
  cases hmove with
  | inside ring hring | handed buf p ring hf hring =>
    have hpushed := producerStep_pushed hring hquiet
    obtain ⟨hturns, hfresh⟩ := producerStep_turns hring hpushed
    exact ⟨hpushed, (producerStep_frame hring).2.2.2.1, hturns, hfresh, rfl, rfl, rfl, rfl⟩
  | pushed buf p ring hf hphase hring hp hpushed =>
    rw [producerStep_pushed hring hquiet] at hpushed
    have hlen := congrArg List.length hpushed
    rw [List.length_append, List.length_singleton] at hlen
    omega
  | _ => exact ⟨rfl, rfl, rfl, id, rfl, rfl, rfl, rfl⟩

theorem step_unseen {s t : State Q} {a : Act} (hinv : Inv c contents offsets s)
    (hquiet : Quiet s a) (hother : a.isRead = false) (hstep : step hdrs N s a = some t) :
    Unseen s t := by
  cases step_move hinv.fault hinv.read hstep with
  | vmm _ hmove => exact hmove.unseen hquiet
  | faulted | framed | handled => exact ⟨rfl, rfl, rfl, id, rfl, rfl, rfl, rfl⟩
  | read => cases hother
  | looks | called => exact hquiet.elim

theorem Unseen.during {s t u : State Q} {call : ReadCall} {node : Mem} (h : Unseen t u)
    (hd : During hdrs s call node t) : During hdrs s call node u := by
  refine ⟨h.pushed.trans hd.pushed, h.nodeAtCall.trans hd.nodeAtCall, h.fresh hd.fresh, ?_⟩
  rw [State.queued, h.pushed, h.popped, h.node, h.results, h.read]
  exact hd.place

theorem step_during {s t u : State Q} {a : Act} {call : ReadCall} {node : Mem}
    (hinv : Inv c contents offsets t) (h : During hdrs s call node t) (hquiet : Quiet t a)
    (hstep : step hdrs N t a = some u) : During hdrs s call node u := by
  cases a with
  | read => exact readStep_during hinv h hstep
  | _ => exact (step_unseen hinv hquiet rfl hstep).during h

/-! ## The whole call -/

section Call
variable {s t : State Q} {call : ReadCall} {node : Mem}

theorem step_call (hidle : s.read = .idle) (node : Mem) (call : ReadCall) :
    step hdrs N s (.call node call) = some { s with
      ring := { s.ring with consumer := .frontLoadBack }, read := .front call
      node, nodeAtCall := node } := by
  simp only [step, hidle]

/-- A call begins with the packets that are queued. -/
theorem call_during (hcall : step hdrs N s (.call node call) = some t) :
    During hdrs s call node t := by
  simp only [step] at hcall
  split at hcall
  · cases hcall
    exact ⟨rfl, rfl, trivial, rfl, rfl, rfl, [], rfl, fun _ hmem => (List.not_mem_nil hmem).elim⟩
  · cases hcall

theorem run_during (hN : N.Fifo contents capacity) (hcap : offsets.length ≤ capacity)
    (hinv : Inv c contents offsets t) (h : During hdrs s call node t) {u : State Q}
    (hrun : (machine hdrs N).Run Quiet t u) :
    Inv c contents offsets u ∧ During hdrs s call node u :=
  hrun.invariant (fun u => Inv c contents offsets u ∧ During hdrs s call node u) ⟨hinv, h⟩
    fun _ _ _ h hquiet hstep =>
      ⟨step_inv hN hcap h.1 hquiet.fit hstep, step_during h.1 h.2 hquiet hstep⟩

end Call

end MicroRosDemos.Sel4.FromGuest
