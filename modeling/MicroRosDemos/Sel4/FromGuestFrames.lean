import MicroRosDemos.Sel4.FromGuestInv

/-!
# From the guest to ping_pong: which payloads arrive

`Frames` follows the guest's frames: those in the blocks of the queue, the one
in the VMM's hands, those in active buffers. `Reads` says what the reads made of
the frames popped so far: each addressed frame answered one read, the others
none.
-/

namespace MicroRosDemos.Sel4.FromGuest

open MicroRosDemos.Lib MicroRosDemos.Net MicroRosDemos.Spsc

variable {Q : Type} {hdrs : TxHdrs} {N : NetRing Q}
variable {contents : Q → List NetBuffDesc} {capacity : Nat} {offsets : List Nat}

/-! ## The frames on their way -/

/-- Two buffers of 2048 bytes that share none. -/
def Apart (a b : Nat) : Prop := a + 2048 ≤ b ∨ b + 2048 ≤ a

/-- The buffer in the VMM's hands that it has not copied yet. -/
def FaultPc.uncopied : FaultPc → List NetBuffDesc
  | .newBlock buf | .fill buf => [buf]
  | _ => []

/-- The buffers whose frames are not in the queue yet, oldest first. -/
def State.waiting (contents : Q → List NetBuffDesc) (s : State Q) : List NetBuffDesc :=
  s.fault.uncopied ++ contents s.txActive

/-- The guest's frames are at the start of the filled blocks, and then in the
waiting buffers. -/
def Frames (contents : Q → List NetBuffDesc) (s : State Q) : Prop :=
  ∃ frames, s.sent = frames ++ (s.waiting contents).map (NetBuffDesc.bytes s.txData) ∧
    List.Forall₂ (· <+: ·) frames s.ring.filled

theorem uncopied_sublist_held (pc : FaultPc) : pc.uncopied.Sublist pc.held := by
  cases pc <;> simp [FaultPc.uncopied, FaultPc.held]

theorem FaultMove.frames {s t : State Q} (hN : N.Fifo contents capacity)
    (hinv : Around contents offsets s) (h : Frames contents s) (hmove : FaultMove N s t) :
    Frames contents t := by
  obtain ⟨frames, hsent, hfilled⟩ := h
  cases hmove with
  | inside ring hring hphase hpushed =>
    obtain ⟨hmem, _, _, _, hsize⟩ := producerStep_frame hring
    refine ⟨frames, hsent, ?_⟩
    rw [show ring.filled = s.ring.filled from filled_congr hpushed hphase hmem hsize]
    exact hfilled
  | drained hf =>
    rw [State.waiting, hf] at hsent
    exact ⟨frames, hsent, hfilled⟩
  | dequeued buf txActive hf hdeq =>
    have hat := hinv.fault
    rw [hf] at hat
    rw [State.waiting, hf, hN.dequeue_some hdeq] at hsent
    refine ⟨frames, hsent, ?_⟩
    rw [filled_of_idle hat] at hfilled
    rw [filled_of_newBlock (s := { s.ring with producer := .newBlockLoadBack }) rfl]
    exact hfilled
  | handed buf p ring hf hring hp hpushed =>
    have hat := hinv.fault
    rw [hf] at hat
    rw [State.waiting, hf] at hsent
    refine ⟨frames, hsent, ?_⟩
    rw [filled_of_newBlock hat] at hfilled
    rw [filled_of_block hp, hpushed]
    exact hfilled
  | filled buf p hf hp =>
    have hlen : buf.len ≤ 2048 := hinv.fits buf (by
      rw [hf]
      exact List.mem_append_right _ (List.mem_singleton.mpr rfl))
    rw [State.waiting, hf] at hsent
    refine ⟨frames ++ [buf.bytes s.txData], ?_, ?_⟩
    · rw [hsent, List.append_assoc]
      rfl
    · rw [filled_of_block hp] at hfilled
      refine List.rel_append hfilled (.cons ?_ .nil)
      show _ <+: Mem.read _ p s.ring.size
      rw [hinv.size, Mem.read_write _ _ _ _ (by rw [Mem.read_length]; exact hlen)]
      exact List.prefix_append _ _
  | pushed buf p ring hf hphase hring hp hpushed =>
    rw [State.waiting, hf] at hsent
    refine ⟨frames, hsent, ?_⟩
    rw [filled_of_published hphase hp hpushed]
    exact hfilled
  | returned buf hf =>
    rw [State.waiting, hf] at hsent
    exact ⟨frames, hsent, hfilled⟩
  | notified hf =>
    rw [State.waiting, hf] at hsent
    exact ⟨frames, hsent, hfilled⟩

theorem ReadMove.filled {s t : State Q} (hmove : ReadMove hdrs s t) :
    t.ring.filled = s.ring.filled := by
  have hconsumer : ∀ {ring}, consumerStep s.ring = some ring → ring.filled = s.ring.filled := by
    intro ring hring
    obtain ⟨hmem, hp, hpushed, _, hsize⟩ := consumerStep_frame hring
    exact filled_congr hpushed (congrArg _ hp) hmem hsize
  cases hmove with
  | inside ring hring => exact hconsumer hring
  | handed call p ring hr hring => exact hconsumer hring
  | skipped call ring hr hring =>
    show ring.filled = s.ring.filled
    exact hconsumer hring
  | finished call ret ring hr hring => exact hconsumer hring
  | _ => rfl

/-- The guest writes a frame to a free buffer, and to no other. -/
theorem guestFrame_bytes {s : State Q} (hfar : offsets.Pairwise Apart)
    (hN : N.Fifo contents capacity) (hinv : Around contents offsets s) {frame : List Byte}
    (hlen : frame.length ≤ 2048) {buf : NetBuffDesc} {txFree : Q}
    (hdeq : N.dequeue s.txFree = some (buf, txFree)) {d : NetBuffDesc}
    (hd : d ∈ s.waiting contents) :
    d.bytes (s.txData.write buf.ioOrOffset frame) = d.bytes s.txData := by
  have hmem : d ∈ contents s.txActive ++ s.fault.held := by
    rcases List.mem_append.mp hd with hheld | hactive
    · exact List.mem_append_right _ ((uncopied_sublist_held _).subset hheld)
    · exact List.mem_append_left _ hactive
  have hd2048 := hinv.fits d hmem
  have hapart : Apart buf.ioOrOffset d.ioOrOffset := by
    have hpair : (s.buffers contents).Pairwise Apart :=
      hinv.buffers.symm.pairwise hfar fun h => h.symm
    rw [State.buffers, hN.dequeue_some hdeq, List.append_assoc, List.cons_append, List.map_cons] at hpair
    refine (List.pairwise_cons.mp hpair).1 _ (List.mem_map_of_mem ?_)
    exact List.mem_append_right _ hmem
  unfold NetBuffDesc.bytes
  refine Mem.read_write_disjoint _ _ _ _ ?_
  rcases hapart with hle | hle
  · right
    omega
  · left
    omega

theorem step_frames {s t : State Q} {a : Act} (hfar : offsets.Pairwise Apart)
    (hN : N.Fifo contents capacity) (hcap : offsets.length ≤ capacity)
    (hinv : Around contents offsets s) (h : Frames contents s) (hok : FramesFit s a)
    (hstep : step hdrs N s a = some t) : Frames contents t := by
  cases step_move hinv.fault hinv.read hstep with
  | vmm _ hmove => exact hmove.frames hN hinv h
  | read _ hmove =>
    obtain ⟨hfault, _, hactive, hdata, hsent⟩ := hmove.net
    rw [Frames, State.waiting, hfault, hactive, hdata, hsent, hmove.filled]
    exact h
  | faulted heq =>
    rw [Frames, State.waiting, heq] at h
    exact h
  | handled success heq =>
    rw [Frames, State.waiting, heq] at h
    cases success <;> exact h
  | looks | called => exact h
  | framed frame buf txFree heq hdeq =>
    obtain ⟨frames, hsent, hfilled⟩ := h
    obtain ⟨_, henq⟩ := guestFrame_contents frame hN hcap hinv hdeq
    refine ⟨frames, ?_, hfilled⟩
    have hold : (s.waiting contents).map
        (NetBuffDesc.bytes (s.txData.write buf.ioOrOffset frame)) =
        (s.waiting contents).map (NetBuffDesc.bytes s.txData) :=
      List.map_congr_left fun d hd => guestFrame_bytes hfar hN hinv hok hdeq hd
    have hnew : NetBuffDesc.bytes (s.txData.write buf.ioOrOffset frame)
        { buf with len := frame.length } = frame := Mem.read_write_self _ _ _
    simp only [State.waiting] at hold hsent ⊢
    rw [henq, ← List.append_assoc, List.map_append, hold, hsent, List.append_assoc, List.map_cons,
      hnew, List.map_nil]

end MicroRosDemos.Sel4.FromGuest
