import MicroRosDemos.Spsc.Capacity
import MicroRosDemos.Sel4.Boot
import MicroRosDemos.Sel4.FromGuestReads
import MicroRosDemos.Sel4.FromGuestCall
import MicroRosDemos.Sel4.Reinit
import MicroRosDemos.Sel4.ToGuestBuffers

/-!
# What the VMM's `init` leaves

`init` sets up both queues, fills the free rings of the network device, and starts the guest
when everything else could be set up. What the other modules assume of the start is what it
leaves then (`init_started`).

From there nothing of a fault is left behind: once the VMM is out of `fault`, every frame
that the guest sent has been pushed, and every buffer of `net_tx` is free again
(`init_drains`). So the guest finds 16 buffers at its next fault, however many frames there
have been. That ping_pong initialises the queue again in between does not matter for this,
though it does for what becomes of the blocks that were pushed before.
-/

namespace MicroRosDemos.Sel4.VmmInit

open MicroRosDemos.Lib MicroRosDemos.Net
open MicroRosDemos.Spsc (SpscQueue sizeofSpscQueue blank spscInit spscInit_sound filled_of_idle
  filled_congr)
open MicroRosDemos.Sel4.ToGuest (initNetRx initNetRx_contents)
open MicroRosDemos.Sel4.FromGuest

/-- `NET_NUM_BUFFERS` and `NET_BUF_SIZE`. -/
def netNumBuffers : Nat := 16

def netBufSize : Nat := 2048

/-- `PP2VMM_SIZE` and `VMM2PP_SIZE`. -/
def pp2vmmSize : Nat := 0x100000

def vmm2ppSize : Nat := 0x100000

/-- What the calls of `init` that leave the repository return. -/
structure Outcome where
  kernelPc : Nat
  virqController : Bool
  virtioNet : Bool
  readySignal : Bool

/-- The globals of the VMM. -/
structure Vmm (Q : Type) where
  pp2vmm : SpscQueue
  vmm2pp : SpscQueue
  txFree : Q
  txActive : Q
  rxFree : Q
  rxActive : Q
  txData : Mem
  rxData : Mem

/-- How `init` ends: an assertion fails, or it returns with a message, or it has started the
guest at the entry of its kernel. -/
inductive Ended (Q : Type)
  | assertFailed
  | failed (vmm : Vmm Q)
  | started (vmm : Vmm Q) (kernelPc : Nat)

variable {Q : Type} (N : NetRing Q)

/-- The loop that fills the free ring of `net_tx`, as the one behind it does for `net_rx`. -/
def initNetTx (bufSize : Nat) (txFree : Q) (n : Nat) : Q := initNetRx N bufSize txFree n

/-- The globals once both queues are set up, `memset` has cleared the buffers and both free
rings are filled; `empty` is a ring as `net_queue_init` leaves it. -/
def Vmm.setUp (empty : Q) (pp2vmm vmm2pp : SpscQueue) : Vmm Q where
  pp2vmm := pp2vmm
  vmm2pp := vmm2pp
  txFree := initNetTx N netBufSize empty netNumBuffers
  txActive := empty
  rxFree := initNetRx N netBufSize empty netNumBuffers
  rxActive := empty
  txData := fun _ => 0
  rxData := fun _ => 0

/-- The rest of `init`, from `linux_setup_images` on. -/
def startGuest (o : Outcome) (vmm : Vmm Q) : Ended Q :=
  if o.kernelPc = 0 then .failed vmm
  else if o.virqController = false then .failed vmm
  else if o.virtioNet = false then .failed vmm
  else if o.readySignal = false then .failed vmm
  else .started vmm o.kernelPc

/-- `init`; `pp2vmm` and `vmm2pp` are what the regions of the queues hold before. -/
def init (empty : Q) (o : Outcome) (pp2vmm vmm2pp : SpscQueue) : Ended Q :=
  match spscInit pp2vmm (Boot.pp2vmm + sizeofSpscQueue) (Boot.pp2vmm + pp2vmmSize) 11 with
  | (false, _) => .assertFailed
  | (true, pp2vmm) =>
    match spscInit vmm2pp (Boot.vmm2pp + sizeofSpscQueue) (Boot.vmm2pp + vmm2ppSize) 11 with
    | (false, _) => .assertFailed
    | (true, vmm2pp) => startGuest o (.setUp N empty pp2vmm vmm2pp)

/-- All that `init` owes to what runs after it. -/
structure Serves (contents : Q → List NetBuffDesc) (vmm : Vmm Q) : Prop where
  pp2vmm : ∃ q, spscInit q (Boot.pp2vmm + sizeofSpscQueue) (Boot.pp2vmm + pp2vmmSize) 11 = (true, vmm.pp2vmm)
  vmm2pp : ∃ q, spscInit q (Boot.vmm2pp + sizeofSpscQueue) (Boot.vmm2pp + vmm2ppSize) 11 = (true, vmm.vmm2pp)
  txFree : contents vmm.txFree = (List.range netNumBuffers).map fun i => ⟨i * netBufSize, 0⟩
  txActive : contents vmm.txActive = []
  rxFree : contents vmm.rxFree = (List.range netNumBuffers).map fun i => ⟨i * netBufSize, 0⟩
  rxActive : contents vmm.rxActive = []

variable {N} {hdrs : TxHdrs} {contents : Q → List NetBuffDesc} {capacity : Nat} {empty : Q} {o : Outcome}
variable {pp2vmm vmm2pp : SpscQueue} {vmm : Vmm Q} {kernelPc : Nat} {s t : State Q}

theorem startGuest_started {vmm' : Vmm Q} (h : startGuest o vmm' = .started vmm kernelPc) : vmm = vmm' := by
  unfold startGuest at h
  split at h
  · cases h
  · split at h
    · cases h
    · split at h
      · cases h
      · split at h
        · cases h
        · exact (Ended.started.inj h).1.symm

/-- When the guest is started, everything is as the rest assumes it. -/
theorem init_started (hN : N.Fifo contents capacity) (hcap : netNumBuffers ≤ capacity)
    (hempty : contents empty = []) (h : init N empty o pp2vmm vmm2pp = .started vmm kernelPc) :
    Serves contents vmm := by
  have hfilled := initNetRx_contents hN netBufSize hempty hcap
  unfold init at h
  split at h
  · cases h
  · next q₀ hpp2vmm =>
    split at h
    · cases h
    · next q₁ hvmm2pp =>
      rw [startGuest_started h]
      exact ⟨⟨_, hpp2vmm⟩, ⟨_, hvmm2pp⟩, hfilled, hempty, hfilled, hempty⟩

/-! ## Nothing is left behind -/

/-- The device model handles every fault; one that it does not handle stops the guest. -/
def Handled : Act → Prop
  | .handled success => success = true
  | _ => True

instance (a : Act) : Decidable (Handled a) :=
  match a with
  | .handled success => inferInstanceAs (Decidable (success = true))
  | .fault | .guestFrame _ | .vmm | .empty | .call _ _ | .read => .isTrue trivial

/-- Outside `fault` the active ring is empty. -/
def Drained (contents : Q → List NetBuffDesc) (s : State Q) : Prop :=
  s.fault = .idle → contents s.txActive = []

theorem step_drained {offsets : List Nat} {a : Act} (hN : N.Fifo contents capacity)
    (hinv : Around contents offsets s) (h : Drained contents s) (hok : Handled a)
    (hstep : step hdrs N s a = some t) : Drained contents t := by
  cases step_move hinv.fault hinv.read hstep with
  | vmm _ hmove =>
    cases hmove with
    | inside => exact h
    | drained hf hdeq => exact fun _ => hN.dequeue_eq_none.mp hdeq
    | dequeued | handed | filled | pushed | returned | notified => exact fun hidle => by cases hidle
  | read _ hmove =>
    obtain ⟨hfault, _, hactive, _⟩ := hmove.net
    rw [Drained, hfault, hactive]
    exact h
  | faulted => exact fun hidle => by cases hidle
  | framed frame buf txFree hf => exact fun hidle => by cases hf.symm.trans hidle
  | handled success =>
    rw [show success = true from hok]
    exact fun hidle => by cases hidle
  | looks | called => exact h

/-- What `init_drains` asks of the guest, and of the device model. -/
def Serviced (s : Reinit.State Q) : Reinit.Act → Prop
  | .fromGuest a => FramesFit s.sys a ∧ Handled a
  | .transportInit | .store => True

instance (s : Reinit.State Q) (a : Reinit.Act) : Decidable (Serviced s a) :=
  match a with
  | .fromGuest _ => inferInstanceAs (Decidable (_ ∧ _))
  | .transportInit | .store => .isTrue trivial

/-- What is so of the frames and the buffers, whatever the counters of the queue hold. -/
structure Flows (contents : Q → List NetBuffDesc) (offsets : List Nat) (s : State Q) : Prop where
  around : Around contents offsets s
  frames : Frames contents s
  drained : Drained contents s

theorem Flows.step {offsets : List Nat} {a : Act} (hfar : offsets.Pairwise Apart)
    (hN : N.Fifo contents capacity) (hcap : offsets.length ≤ capacity) (h : Flows contents offsets s)
    (hfits : FramesFit s a) (hhandled : Handled a) (hstep : step hdrs N s a = some t) :
    Flows contents offsets t where
  around := step_around hN hcap h.around hfits hstep
  frames := step_frames hfar hN hcap h.around h.frames hfits hstep
  drained := step_drained hN h.around h.drained hhandled hstep

/-- A store of `spsc_init` moves no buffer and no frame. -/
theorem Flows.store {fresh : SpscQueue} {offsets : List Nat} (hfresh : fresh.log2BlockSize = 11)
    (x : Reinit.InitStore) (h : Flows contents offsets s) :
    Flows contents offsets { s with ring := { s.ring with q := x.apply fresh s.ring.q } } := by
  have hsize : (x.apply fresh s.ring.q).log2BlockSize = 11 := by
    cases x <;> first | exact h.around.blockSize | exact hfresh
  have haround : Around contents offsets
      { s with ring := { s.ring with q := x.apply fresh s.ring.q } } :=
    ⟨hsize, h.around.fault, h.around.read, h.around.buffers, h.around.fits⟩
  have hfilled := filled_congr (s := s.ring) (t := { s.ring with q := x.apply fresh s.ring.q })
    rfl rfl rfl (haround.size.trans h.around.size.symm)
  obtain ⟨frames, hsent, hall⟩ := h.frames
  exact ⟨haround, ⟨frames, hsent, by rw [hfilled]; exact hall⟩, h.drained⟩

theorem reinit_flows {fresh : SpscQueue} {offsets : List Nat} {s t : Reinit.State Q} {a : Reinit.Act}
    (hfar : offsets.Pairwise Apart) (hN : N.Fifo contents capacity) (hcap : offsets.length ≤ capacity)
    (hfresh : fresh.log2BlockSize = 11) (h : Flows contents offsets s.sys) (hok : Serviced s a)
    (hstep : Reinit.step hdrs N fresh s a = some t) : Flows contents offsets t.sys := by
  cases a with
  | fromGuest a =>
    simp only [Reinit.step] at hstep
    split at hstep
    · rw [Option.map_eq_some_iff] at hstep
      obtain ⟨sys, hstep, rfl⟩ := hstep
      exact h.step hfar hN hcap hok.1 hok.2 hstep
    · cases hstep
  | transportInit =>
    simp only [Reinit.step] at hstep
    split at hstep <;> cases hstep
    exact h
  | store =>
    simp only [Reinit.step] at hstep
    split at hstep
    · next x rest hphase =>
      cases hstep
      exact h.store hfresh x
    · cases hstep
      exact h
    · cases hstep

/-- **Nothing of a fault is left behind.** When `init` has started the guest, then in every
interleaving of the VMM and ping_pong, which initialises the queue again at any time and uses
it behind that, whatever frames the guest sends as long as each fits a buffer and its faults
are handled: whenever the VMM is outside `fault`, every buffer of `net_tx` is on the free ring,
each once, and none on the active ring; and the blocks pushed so far, whether or not the
second `spsc_init` then dropped them, begin with exactly the frames sent so far, in order. -/
theorem init_drains (hN : N.Fifo contents capacity) (hcap : netNumBuffers ≤ capacity)
    (hempty : contents empty = []) (h : init N empty o pp2vmm vmm2pp = .started vmm kernelPc)
    (mem : Mem) (pending : Bool) {s : Reinit.State Q}
    (hrun : (Reinit.machine hdrs N vmm.vmm2pp).Run Serviced
      (.start vmm.vmm2pp mem vmm.txData vmm.txFree vmm.txActive pending) s)
    (hidle : s.sys.fault = .idle) :
    contents s.sys.txActive = [] ∧
      ((contents s.sys.txFree).map NetBuffDesc.ioOrOffset).Perm
        ((List.range netNumBuffers).map (· * netBufSize)) ∧
      List.Forall₂ (· <+: ·) s.sys.sent (s.sys.ring.pushed.map Prod.snd) := by
  have hserves := init_started hN hcap hempty h
  obtain ⟨q, hvmm2pp⟩ := hserves.vmm2pp
  obtain ⟨_, _, _, hsize⟩ := spscInit_sound (by decide) (by decide) hvmm2pp
  have hfree : ((contents vmm.txFree).map NetBuffDesc.ioOrOffset).Perm
      ((List.range netNumBuffers).map (· * netBufSize)) := by
    rw [hserves.txFree, List.map_map]
    exact .refl _
  have hlen : ((List.range netNumBuffers).map (· * netBufSize)).length ≤ capacity := by
    rw [List.length_map, List.length_range]
    exact hcap
  have hfar := apart_range (show 2048 ≤ netBufSize from Nat.le_refl _) netNumBuffers
  have hstart : Flows contents ((List.range netNumBuffers).map (· * netBufSize))
      (.start vmm.vmm2pp mem vmm.txData vmm.txFree vmm.txActive pending) := by
    refine ⟨start_around hsize _ _ hfree hserves.txActive _, ⟨[], ?_, .nil⟩, fun _ => hserves.txActive⟩
    simp only [State.waiting, State.start, hserves.txActive, FaultPc.uncopied, List.append_nil, List.map_nil]
  obtain ⟨haround, ⟨frames, hsent, hfilled⟩, hdrained⟩ := hrun.invariant
    (fun s => Flows contents ((List.range netNumBuffers).map (· * netBufSize)) s.sys) hstart
    fun s a t hs hok hstep => reinit_flows hfar hN hlen hsize hs hok hstep
  have hactive := hdrained hidle
  have hbuffers := haround.buffers
  have hphase := haround.fault
  rw [hidle] at hphase
  rw [State.buffers, hidle, hactive, FaultPc.held, List.append_nil, List.append_nil] at hbuffers
  rw [State.waiting, hidle, hactive] at hsent
  rw [filled_of_idle hphase] at hfilled
  refine ⟨hactive, hbuffers, ?_⟩
  rw [hsent]
  simpa only [FaultPc.uncopied, List.append_nil, List.map_nil] using hfilled

/-- What the VMM starts with. -/
def shippedVmm : Vmm (List NetBuffDesc) :=
  .setUp (listRing netNumBuffers) []
    (spscInit blank (Boot.pp2vmm + sizeofSpscQueue) (Boot.pp2vmm + pp2vmmSize) 11).2
    (spscInit blank (Boot.vmm2pp + sizeofSpscQueue) (Boot.vmm2pp + vmm2ppSize) 11).2

theorem init_shipped :
    init (listRing netNumBuffers) [] ⟨0x40000000, true, true, true⟩ blank blank =
      .started shippedVmm 0x40000000 := rfl

/-- Three bytes in one fault, then ping_pong's `spsc_init`, then two more in another. -/
theorem init_drains_two :
    ∃ s, (Reinit.machine pingPongHdrs (listRing netNumBuffers) shippedVmm.vmm2pp).Run Serviced
        (.start shippedVmm.vmm2pp (fun _ => 0) shippedVmm.txData shippedVmm.txFree shippedVmm.txActive false) s ∧
      s.sys.fault = .idle ∧ s.phase = .after ∧ s.sys.sent = [[1, 2, 3], [4, 5]] ∧ s.sys.txFree.length = 16 ∧
      List.Forall₂ (· <+: ·) s.sys.sent (s.sys.ring.pushed.map Prod.snd) := by
  obtain ⟨s, hreach, hidle, hafter, hsent, hfree⟩ :=
    ((Reinit.machine pingPongHdrs (listRing netNumBuffers) shippedVmm.vmm2pp).restrict Serviced).exists_reach
      (P := fun s => s.sys.fault = .idle ∧ s.phase = .after ∧ s.sys.sent = [[1, 2, 3], [4, 5]] ∧
        s.sys.txFree.length = 16)
      (s := .start shippedVmm.vmm2pp (fun _ => 0) shippedVmm.txData shippedVmm.txFree shippedVmm.txActive false)
      (Reinit.runForward [1, 2, 3] 11 ++ Reinit.runReinit ++ Reinit.runForward [4, 5] 11) (by decide +kernel)
  have hrun := Machine.run_of_restrict hreach
  exact ⟨s, hrun, hidle, hafter, hsent, hfree,
    (init_drains (listRing_fifo netNumBuffers) (Nat.le_refl _) rfl init_shipped _ _ hrun hidle).2.2⟩

end MicroRosDemos.Sel4.VmmInit
