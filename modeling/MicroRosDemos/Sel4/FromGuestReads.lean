import MicroRosDemos.Sel4.FromGuestFrames

/-!
# From the guest to ping_pong: what the reads return

A read that returned has popped the frames up to the first addressed one, and
says what became of that one: its payload is in the caller's buffer, or it was
too long and nothing was written. `Current` is what is known inside a call, of
the frame whose block is at the front.
-/

namespace MicroRosDemos.Sel4.FromGuest

open MicroRosDemos.Lib MicroRosDemos.Net MicroRosDemos.Spsc

variable {Q : Type} {hdrs : TxHdrs} {N : NetRing Q} {c : Word}
variable {contents : Q → List NetBuffDesc} {capacity : Nat} {offsets : List Nat}

/-- The frames of the guest are as assumed. -/
def FramesOk (hdrs : TxHdrs) (_ : State Q) : Act → Prop
  | .guestFrame frame => FrameOk hdrs frame
  | _ => True

instance (hdrs : TxHdrs) (s : State Q) (a : Act) : Decidable (FramesOk hdrs s a) :=
  match a with
  | .guestFrame frame => inferInstanceAs (Decidable (FrameOk hdrs frame))
  | .fault | .handled _ | .vmm | .empty | .call _ _ | .read => inferInstanceAs (Decidable True)

theorem FramesOk.fit {s : State Q} {a : Act} (h : FramesOk hdrs s a) : FramesFit s a := by
  cases a with
  | guestFrame frame => exact h.2.1
  | _ => trivial

/-- What a call makes of an addressed frame: the payload is in the buffer and
its length returned, or it did not fit and the memory is as it was. -/
def ReadOk (frame : List Byte) (r : ReadResult) : Prop :=
  if (udpPayload frame).length ≤ r.call.len.toNat then
    r.ret.toNat = (udpPayload frame).length ∧
      r.after = r.before.write r.call.buf (udpPayload frame)
  else r.ret = 0 ∧ r.after = r.before

/-- The frame at the front of the queue. -/
def State.AtFront (s : State Q) (frame : List Byte) : Prop := s.sent[s.ring.popped]? = some frame

/-- What is known inside a call. -/
def Current (hdrs : TxHdrs) (s : State Q) : ReadPc → Prop
  | .idle | .empty => True
  | .front _ | .filter _ => s.node = s.nodeAtCall
  | .skip _ => s.node = s.nodeAtCall ∧ ∃ frame, s.AtFront frame ∧ addressed hdrs frame = false
  | .getPayload _ | .getPayloadLen _ =>
    s.node = s.nodeAtCall ∧ ∃ frame, s.AtFront frame ∧ addressed hdrs frame = true
  | .copy call payloadLen =>
    s.node = s.nodeAtCall ∧ ∃ frame, s.AtFront frame ∧ addressed hdrs frame = true ∧
      payloadLen.toNat = (udpPayload frame).length ∧ payloadLen.toNat ≤ call.len.toNat
  | .finish call ret =>
    ∃ frame, s.AtFront frame ∧ addressed hdrs frame = true ∧
      ReadOk frame ⟨call, ret, s.nodeAtCall, s.node⟩
  | .assertFailed => False

/-- The reads that returned answer the addressed frames among those popped. -/
structure Reads (hdrs : TxHdrs) (s : State Q) : Prop where
  ok : ∀ frame ∈ s.sent, FrameOk hdrs frame
  results : List.Forall₂ ReadOk ((s.sent.take s.ring.popped).filter (addressed hdrs)) s.results
  current : Current hdrs s s.read

/-! ## The frame at the front -/

/-- The block at the front of the queue begins with the frame at the front. -/
theorem front_frame {s : State Q} (hinv : Inv c contents offsets s) (hframes : Frames contents s)
    (hok : ∀ frame ∈ s.sent, FrameOk hdrs frame) {p : Nat}
    (hget : s.ring.pushed[s.ring.popped]? = some (p, s.ring.mem.read p s.ring.size)) :
    ∃ frame, s.AtFront frame ∧ FrameOk hdrs frame ∧
      s.ring.mem.read p frame.length = frame := by
  obtain ⟨frames, hsent, hfilled⟩ := hframes
  have hlt := (List.getElem?_eq_some_iff.mp hget).1
  have hblock : s.ring.filled[s.ring.popped]? = some (s.ring.mem.read p 2048) := by
    obtain ⟨rest, hrest⟩ := pushed_prefix_filled s.ring
    rw [← hrest, List.getElem?_append_left (by rw [List.length_map]; exact hlt), List.getElem?_map,
      hget, Option.map_some, hinv.size]
  obtain ⟨hlen, hall⟩ := List.forall₂_iff_get.mp hfilled
  obtain ⟨hin, hcontent⟩ := List.getElem?_eq_some_iff.mp hblock
  have hprefix := hall s.ring.popped (by omega) hin
  rw [List.get_eq_getElem, List.get_eq_getElem, hcontent] at hprefix
  have hfront : s.AtFront frames[s.ring.popped] := by
    rw [State.AtFront, hsent, List.getElem?_append_left (by omega),
      List.getElem?_eq_getElem (by omega)]
  have hframe := hok _ (List.mem_of_getElem? hfront)
  refine ⟨_, hfront, hframe, ?_⟩
  have htake := List.prefix_iff_eq_take.mp hprefix
  rw [Mem.read_take _ _ _ hframe.2.1] at htake
  exact htake.symm

/-- More frames behind it do not change the frame at the front. -/
theorem State.AtFront.append {s : State Q} {frame more : List Byte} (h : s.AtFront frame) :
    (s.sent ++ [more])[s.ring.popped]? = some frame := by
  rw [List.getElem?_append_left (List.getElem?_eq_some_iff.mp h).1]
  exact h

/-- A pop takes the frame at the front. -/
theorem State.AtFront.take {s : State Q} {frame : List Byte} (h : s.AtFront frame) :
    s.sent.take (s.ring.popped + 1) = s.sent.take s.ring.popped ++ [frame] := by
  rw [List.take_add_one, h]
  rfl

/-! ## Each step of a read -/

theorem ReadMove.reads {s t : State Q} (hinv : Inv c contents offsets s)
    (hframes : Frames contents s) (h : Reads hdrs s) (hmove : ReadMove hdrs s t) :
    Reads hdrs t := by
  obtain ⟨hok, hresults, hcur⟩ := h
  -- the frame whose block the call holds, seen through the memory as it is now
  have hholding {p content frame} (hp : s.ring.consumer = .holding p content)
      (hfront : s.AtFront frame) : FrameOk hdrs frame ∧ s.ring.mem.read p frame.length = frame := by
    obtain ⟨frame', hfront', hframe⟩ := front_frame hinv hframes hok (hinv.ring.holding_block hp)
    cases Option.some.inj (hfront.symm.trans hfront')
    exact hframe
  cases hmove with
  | inside ring hring hphase hpopped =>
    refine ⟨hok, by rw [hpopped]; exact hresults, ?_⟩
    cases hr : s.read <;> rw [hr] at hcur <;>
      simp only [Current, State.AtFront, hpopped] at hcur ⊢ <;> exact hcur
  | looked empty hr hpc => exact ⟨hok, hresults, trivial⟩
  | handed call p ring hr hring hp hpopped =>
    rw [hr] at hcur
    exact ⟨hok, by rw [hpopped]; exact hresults, hcur⟩
  | accepted call p hr hp hme =>
    rw [hr] at hcur
    obtain ⟨frame, hfront, hframe, hread⟩ := front_frame hinv hframes hok (hinv.ring.front_block hp)
    rw [isAddressedToMe_of_read hread (by have := hframe.1; omega)] at hme
    exact ⟨hok, hresults, hcur, frame, hfront, hme⟩
  | refused call p hr hp hme =>
    rw [hr] at hcur
    obtain ⟨frame, hfront, hframe, hread⟩ := front_frame hinv hframes hok (hinv.ring.front_block hp)
    rw [isAddressedToMe_of_read hread (by have := hframe.1; omega)] at hme
    exact ⟨hok, hresults, hcur, frame, hfront, hme⟩
  | skipped call ring hr hring hp hpopped =>
    rw [hr] at hcur
    obtain ⟨hnode, frame, hfront, hme⟩ := hcur
    refine ⟨hok, ?_, hnode⟩
    show List.Forall₂ ReadOk ((s.sent.take ring.popped).filter (addressed hdrs)) s.results
    rw [hpopped, hfront.take, List.filter_append, List.filter_cons_of_neg (by rw [hme]; exact nofun),
      List.filter_nil, List.append_nil]
    exact hresults
  | assertFailed p content hr hp hudp =>
    -- the filter has accepted the frame, so it is a UDP packet
    exfalso
    have hfront : ∃ frame, s.AtFront frame ∧ addressed hdrs frame = true := by
      rcases hr with ⟨call, hr⟩ | ⟨call, hr⟩ <;> rw [hr] at hcur <;> exact hcur.2
    obtain ⟨frame, hfront, hme⟩ := hfront
    obtain ⟨hframe, hread⟩ := hholding hp hfront
    rw [← isAddressedToMe_of_read hread (by have := hframe.1; omega)] at hme
    rw [isUdp_of_addressed hme] at hudp
    cases hudp
  | payload call hr =>
    rw [hr] at hcur
    exact ⟨hok, hresults, hcur⟩
  | dropped call p content hr hp hlen =>
    rw [hr] at hcur
    obtain ⟨hnode, frame, hfront, hme⟩ := hcur
    obtain ⟨hframe, hread⟩ := hholding hp hfront
    obtain ⟨hmin, _, hulen⟩ := hframe
    obtain ⟨hlo, hhi⟩ := hulen hme
    have hpay := getPayloadLen_of_read hread (by omega) hlo
    refine ⟨hok, hresults, frame, hfront, hme, ?_⟩
    have hlong : ¬ (udpPayload frame).length ≤ call.len.toNat := by
      rw [udpPayload_length hhi hmin, ← hpay]
      exact Nat.not_le.mpr hlen
    rw [ReadOk, if_neg hlong]
    exact ⟨rfl, hnode⟩
  | kept call p content hr hp hlen =>
    rw [hr] at hcur
    obtain ⟨hnode, frame, hfront, hme⟩ := hcur
    obtain ⟨hframe, hread⟩ := hholding hp hfront
    obtain ⟨hmin, _, hulen⟩ := hframe
    obtain ⟨hlo, hhi⟩ := hulen hme
    refine ⟨hok, hresults, hnode, frame, hfront, hme, ?_, Nat.not_lt.mp hlen⟩
    rw [udpPayload_length hhi hmin]
    exact getPayloadLen_of_read hread (by omega) hlo
  | copied call payloadLen p content hr hp =>
    rw [hr] at hcur
    obtain ⟨hnode, frame, hfront, hme, hpay, hfits⟩ := hcur
    obtain ⟨hframe, hread⟩ := hholding hp hfront
    obtain ⟨hmin, _, hulen⟩ := hframe
    obtain ⟨_, hhi⟩ := hulen hme
    refine ⟨hok, hresults, frame, hfront, hme, ?_⟩
    rw [ReadOk, if_pos (by rw [← hpay]; exact hfits)]
    refine ⟨hpay, ?_⟩
    show s.node.write call.buf _ = s.nodeAtCall.write call.buf _
    rw [hnode, hpay, udpPayload_length hhi hmin, read_getPayload_of_read hread hhi hmin]
  | finished call ret ring hr hring hp hpopped =>
    rw [hr] at hcur
    obtain ⟨frame, hfront, hme, hread⟩ := hcur
    refine ⟨hok, ?_, trivial⟩
    show List.Forall₂ ReadOk ((s.sent.take ring.popped).filter (addressed hdrs)) _
    rw [hpopped, hfront.take, List.filter_append, List.filter_cons_of_pos hme, List.filter_nil]
    exact List.rel_append hresults (.cons hread .nil)

theorem FaultMove.reads {s t : State Q} (h : Reads hdrs s) (hmove : FaultMove N s t) :
    Reads hdrs t := by
  obtain ⟨hok, hresults, hcur⟩ := h
  have hproducer : ∀ {ring}, producerStep s.ring = some ring → ring.popped = s.ring.popped :=
    fun hring => (producerStep_frame hring).2.2.2.1
  suffices hsame : t.sent = s.sent ∧ t.results = s.results ∧ t.read = s.read ∧ t.node = s.node ∧
      t.nodeAtCall = s.nodeAtCall ∧ t.ring.popped = s.ring.popped by
    obtain ⟨hsent, hres, hread, hnode, hcall, hpopped⟩ := hsame
    refine ⟨hsent ▸ hok, by rw [hsent, hpopped, hres]; exact hresults, ?_⟩
    rw [hread]
    cases hr : s.read <;> rw [hr] at hcur <;>
      simp only [Current, State.AtFront, hsent, hnode, hcall, hpopped] at hcur ⊢ <;> exact hcur
  cases hmove with
  | inside ring hring => exact ⟨rfl, rfl, rfl, rfl, rfl, hproducer hring⟩
  | handed buf p ring hf hring => exact ⟨rfl, rfl, rfl, rfl, rfl, hproducer hring⟩
  | pushed buf p ring hf hphase hring => exact ⟨rfl, rfl, rfl, rfl, rfl, hproducer hring⟩
  | _ => exact ⟨rfl, rfl, rfl, rfl, rfl, rfl⟩

/-- The guest's next frame is behind all that a read has seen. -/
theorem Current.append {s t : State Q} {frame : List Byte} (h : Current hdrs s s.read)
    (hsent : t.sent = s.sent ++ [frame]) (hread : t.read = s.read) (hnode : t.node = s.node)
    (hcall : t.nodeAtCall = s.nodeAtCall) (hpopped : t.ring.popped = s.ring.popped) :
    Current hdrs t t.read := by
  have hfront : ∀ {f}, s.AtFront f → t.AtFront f := by
    intro f hf
    rw [State.AtFront, hsent, hpopped]
    exact hf.append
  rw [hread]
  cases hr : s.read with
  | idle | empty => trivial
  | front call | filter call =>
    rw [hr] at h
    simp only [Current, hnode, hcall] at h ⊢
    exact h
  | skip call | getPayload call | getPayloadLen call =>
    rw [hr] at h
    simp only [Current, hnode, hcall] at h ⊢
    obtain ⟨hsame, f, hf, hme⟩ := h
    exact ⟨hsame, f, hfront hf, hme⟩
  | copy call payloadLen =>
    rw [hr] at h
    simp only [Current, hnode, hcall] at h ⊢
    obtain ⟨hsame, f, hf, hrest⟩ := h
    exact ⟨hsame, f, hfront hf, hrest⟩
  | finish call ret =>
    rw [hr] at h
    simp only [Current, hnode, hcall] at h ⊢
    obtain ⟨f, hf, hrest⟩ := h
    exact ⟨f, hfront hf, hrest⟩
  | assertFailed =>
    rw [hr] at h
    exact h

/-- What was popped was sent. -/
theorem popped_le_sent {s : State Q} (hinv : Inv c contents offsets s) (h : Frames contents s) :
    s.ring.popped ≤ s.sent.length := by
  obtain ⟨frames, hsent, hfilled⟩ := h
  have hle := hinv.ring.popped_le
  have hpushed := (pushed_prefix_filled s.ring).length_le
  have hlen := hfilled.length_eq
  rw [List.length_map] at hpushed
  rw [hsent, List.length_append]
  omega

theorem step_reads {s t : State Q} {a : Act} (hinv : Inv c contents offsets s)
    (hframes : Frames contents s) (h : Reads hdrs s) (hok : FramesOk hdrs s a)
    (hstep : step hdrs N s a = some t) : Reads hdrs t := by
  cases step_move hinv.fault hinv.read hstep with
  | vmm _ hmove => exact hmove.reads h
  | read _ hmove => exact hmove.reads hinv hframes h
  | faulted | handled => exact ⟨h.ok, h.results, h.current⟩
  | looks | called => exact ⟨h.ok, h.results, by trivial⟩
  | framed frame buf txFree heq hdeq =>
    refine ⟨?_, ?_, h.current.append rfl rfl rfl rfl rfl⟩
    · exact forall_mem_grown.mpr ⟨h.ok, hok⟩
    · rw [List.take_append_of_le_length (popped_le_sent hinv hframes)]
      exact h.results

/-! ## End to end -/

theorem apart_range {bufSize : Nat} (hsize : 2048 ≤ bufSize) (n : Nat) :
    ((List.range n).map (· * bufSize)).Pairwise Apart := by
  refine List.pairwise_map.mpr (List.pairwise_lt_range.imp fun {i j} hij => .inl ?_)
  have hstep := Nat.mul_le_mul_right bufSize (Nat.succ_le_of_lt hij)
  rw [Nat.succ_mul] at hstep
  show i * bufSize + 2048 ≤ j * bufSize
  omega

/-- **Delivery to ping_pong.** From an empty queue, the VMM outside its drain
loop, in every interleaving: the reads that returned answer, in order, exactly
the addressed frames among the first frames of the guest, those popped so far;
no assertion fails; and every buffer of `net_tx` is on the free ring, on the
active ring or in the VMM's hands, and in one place only. -/
theorem read_delivers (hN : N.Fifo contents capacity) {q₀ q : SpscQueue} {b e : Nat}
    (he : e < 2 ^ 64) (hinit : spscInit q₀ b e 11 = (true, q)) (mem txData : Mem)
    {n bufSize : Nat} (hn : n ≤ capacity) (hbuf : 2048 ≤ bufSize) {txFree txActive : Q}
    (hfree : ((contents txFree).map NetBuffDesc.ioOrOffset).Perm ((List.range n).map (· * bufSize)))
    (hactive : contents txActive = []) (pending : Bool) {s : State Q}
    (hrun : (machine hdrs N).Run (FramesOk hdrs)
      (State.start q mem txData txFree txActive pending) s) :
    s.ring.popped ≤ s.sent.length ∧
    List.Forall₂ ReadOk ((s.sent.take s.ring.popped).filter (addressed hdrs)) s.results ∧
    s.read ≠ .assertFailed ∧
    (s.buffers contents).Perm ((List.range n).map (· * bufSize)) := by
  obtain ⟨hsound, _, _, hsize⟩ := spscInit_sound (by decide) he hinit
  rw [spscInit_startAt hinit] at hrun
  have hcap : ((List.range n).map (· * bufSize)).length ≤ capacity := by
    rw [List.length_map, List.length_range]
    exact hn
  have hframes : Frames contents (State.start (q.startAt 0) mem txData txFree txActive pending) := by
    refine ⟨[], ?_, .nil⟩
    rw [State.waiting]
    simp only [State.start, hactive, FaultPc.uncopied, List.append_nil, List.map_nil]
  have hall := hrun.invariant
    (fun s => Inv 0 contents ((List.range n).map (· * bufSize)) s ∧ Frames contents s ∧ Reads hdrs s)
    ⟨start_inv hsound hsize _ _ hfree hactive _, hframes, fun _ h => absurd h List.not_mem_nil, .nil,
      trivial⟩ ?_
  · obtain ⟨hinv, hframes, hreads⟩ := hall
    refine ⟨popped_le_sent hinv hframes, hreads.results, fun hfailed => ?_, hinv.buffers⟩
    have hcur := hreads.current
    rw [hfailed] at hcur
    exact hcur
  · rintro s a t ⟨hinv, hframes, hreads⟩ hok hstep
    exact ⟨step_inv hN hcap hinv hok.fit hstep,
      step_frames (apart_range hbuf n) hN hcap hinv.toAround hframes hok.fit hstep,
      step_reads hinv hframes hreads hok hstep⟩

/-- A frame to somebody else, then one to the node, in one fault: one read skips
the first and returns the payload of the second. -/
theorem read_delivers_second :
    ∃ s, (machine pingPongHdrs (listRing 2)).Run (FramesOk pingPongHdrs) smallStart s ∧
      s.ring.popped = 2 ∧ s.results.map (fun r => (r.ret, r.after 0)) = [(1, 5)] ∧
        List.Forall₂ ReadOk ((s.sent.take s.ring.popped).filter (addressed pingPongHdrs)) s.results := by
  obtain ⟨s, hreach, hpopped, hresults⟩ :=
    ((machine pingPongHdrs (listRing 2)).restrict (FramesOk pingPongHdrs)).exists_reach
      (P := fun s => s.ring.popped = 2 ∧ s.results.map (fun r => (r.ret, r.after 0)) = [(1, 5)])
      (s := smallStart)
      (runFault [toOther, toNode [5]] ++ runDrain ++ runDrain ++
        .call (fun _ => 0) ⟨0, 100⟩ :: List.replicate 22 .read)
      (by decide +kernel)
  have hrun := Machine.run_of_restrict hreach
  have hall := read_delivers (listRing_fifo 2) (n := 2) (by decide) twoFrames_init _ _
    (Nat.le_refl 2) (Nat.le_refl 2048) (List.Perm.refl _) rfl _ hrun
  exact ⟨s, hrun, hpopped, hresults, hall.2.1⟩

end MicroRosDemos.Sel4.FromGuest
