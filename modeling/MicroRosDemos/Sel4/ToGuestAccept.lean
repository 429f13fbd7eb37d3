import MicroRosDemos.Net.Datagram
import MicroRosDemos.Spsc.Turns
import MicroRosDemos.Sel4.ToGuestInv

/-!
# From ping_pong to the guest: which payloads a write takes

`custom_transport_seL4_write` compares the payload with 1500, the MTU of Ethernet, and
`make_pkt` puts an IP header and a UDP header of 28 bytes in front of it. So the
payloads from 1473 to 1500 bytes are taken, and the packet that is made for them is too
long for the MTU (`write_accepts_iff`).

A write that takes its payload waits for a free block. Once there is one, it is back
after 14 of its steps at most, whatever the VMM does meanwhile (`comesBack`).
-/

namespace MicroRosDemos.Sel4.ToGuest

open MicroRosDemos.Lib MicroRosDemos.Net MicroRosDemos.Spsc

variable {Q : Type} {hdrs : TxHdrs} {N : NetRing Q} {c : Word}

/-! ## Legal packets -/

/-- What the block at `p` holds after `make_pkt` has filled it. -/
def madeBlock (hdrs : TxHdrs) (payload : List Byte) (m : Mem) (p : Nat) : List Byte :=
  (makePkt m p payload hdrs.eth hdrs.ip hdrs.udp).read p pktSize

/-- The block holds a legal packet of a payload of `len` bytes, in one Ethernet frame: its
`tot_len` is the length of the packet and within the MTU, and so is the frame. -/
structure LegalPkt (len : Nat) (block : List Byte) : Prop where
  totLen : Datagram.totLen block = ipLen + udpLen + len
  mtu : Datagram.totLen block ≤ ethMtu
  frame : hdrsLen + len ≤ ethFrameMax

/-- `ntohs(tot_len)` in a block that `make_pkt` has filled. -/
theorem totLen_madeBlock (hdrs : TxHdrs) (payload : List Byte) (m : Mem) (p : Nat) :
    Datagram.totLen (madeBlock hdrs payload m p) = (28 + payload.length) % 2 ^ 16 := by
  have hself : (makePkt m p payload hdrs.eth hdrs.ip hdrs.udp).read p
      (madeBlock hdrs payload m p).length = madeBlock hdrs payload m p := by
    rw [madeBlock, Mem.read_length]
  have hload := Datagram.load16_of_read hself (a := 16) (by
    rw [madeBlock, Mem.read_length]
    decide)
  rw [Datagram.totLen, ← hload, totLen_makePkt, htons, htons, bswap16_bswap16, BitVec.toNat_ofNat]
  rfl

/-- Only the payloads that leave room for the headers make a legal packet. -/
theorem legalPkt_iff {payload : List Byte} {m : Mem} {p : Nat} :
    LegalPkt payload.length (madeBlock hdrs payload m p) ↔ payload.length ≤ 1472 := by
  have htot := totLen_madeBlock hdrs payload m p
  constructor
  · intro h
    have hlen := h.totLen
    have hmtu := h.mtu
    simp only [ethMtu, ipLen, udpLen] at hmtu hlen
    omega
  · intro hlen
    refine ⟨?_, ?_, ?_⟩
    · simp only [ipLen, udpLen]
      omega
    · simp only [ethMtu]
      omega
    · simp only [ethFrameMax, ethMtu, hdrsLen, ethLen, ipLen, udpLen]
      omega

/-! ## Taking and refusing a payload -/

/-- No further call of `custom_transport_seL4_write`. -/
def NoCall (_ : State Q) : Act → Prop
  | .call _ => False
  | .write | .wake | .notified _ | .handleRx _ => True

instance (s : State Q) (a : Act) : Decidable (NoCall s a) :=
  match a with
  | .call _ => inferInstanceAs (Decidable False)
  | .write | .wake | .notified _ | .handleRx _ => inferInstanceAs (Decidable True)

/-- A step of ping_pong. -/
def Act.isWrite : Act → Bool
  | .write => true
  | _ => false

/-- The write comes back: whatever the VMM does meanwhile, ping_pong takes no more than 14
steps in it, and until it is back ping_pong can take its next one. -/
def ComesBack (hdrs : TxHdrs) (N : NetRing Q) (s : State Q) : Prop :=
  ∀ as t, ((machine hdrs N).restrict NoCall).exec s as = some t →
    as.countP Act.isWrite ≤ 14 ∧ (t.write = .idle ∨ ∃ u, step hdrs N t .write = some u)

/-- One packet was pushed since `s`, and it is the one that `make_pkt` builds for the payload. -/
def Sent (hdrs : TxHdrs) (s : State Q) (payload : List Byte) (u : State Q) : Prop :=
  ∃ m p, u.ring.pushed = s.ring.pushed ++ [(p, madeBlock hdrs payload m p)]

/-- What the write of `payload` that was called in `s` owes in `u`: to come back when a
block is free; with the step that brings it back, to have notified the VMM; and then, to
have sent the packet and to return the length of the payload. -/
structure Carries (hdrs : TxHdrs) (N : NetRing Q) (s : State Q) (payload : List Byte)
    (u : State Q) : Prop where
  comesBack : ¬ u.ring.Full → ComesBack hdrs N u
  notifies : ∀ v, step hdrs N u .write = some v → v.write = .idle → v.pending = true
  sent : u.write = .idle → Sent hdrs s payload u ∧ u.returned = s.returned ++ [payload.length]

/-- The write takes the payload: it carries it, whatever the two domains do after the call. -/
def Accepts (hdrs : TxHdrs) (N : NetRing Q) (s : State Q) (payload : List Byte) : Prop :=
  ∃ t, step hdrs N s (.call payload) = some t ∧
    ∀ u, (machine hdrs N).Run NoCall t u → Carries hdrs N s payload u

/-- The write refuses the payload: it returns 0 at once, with nothing pushed and no
notification sent. -/
def Refuses (hdrs : TxHdrs) (N : NetRing Q) (s : State Q) (payload : List Byte) : Prop :=
  ∃ t, step hdrs N s (.call payload) = some t ∧ t.write = .idle ∧ t.returned = s.returned ++ [0] ∧
    t.ring = s.ring ∧ t.pending = s.pending

/-! ## The write under way -/

/-- What has been made, pushed and returned at each place of the write of `payload` that was
called in `s`. -/
def Writing (hdrs : TxHdrs) (s : State Q) (payload : List Byte) (u : State Q) : WritePc → Prop
  | .newBlock q | .makePkt q => q = payload ∧ u.returned = s.returned ∧
    u.ring.pushed = s.ring.pushed
  | .push q => q = payload ∧ u.returned = s.returned ∧ u.ring.pushed = s.ring.pushed ∧
    ∃ m p, u.ring.producer.phase = .push p ∧
      u.ring.mem = makePkt m p payload hdrs.eth hdrs.ip hdrs.udp
  | .notify q => q = payload ∧ u.returned = s.returned ∧ Sent hdrs s payload u
  | .idle => Sent hdrs s payload u ∧ u.returned = s.returned ++ [payload.length]

variable {s t u : State Q} {payload : List Byte}

theorem WriteMove.writing (hinv : Inv c t) (h : Writing hdrs s payload t t.write)
    (hmove : WriteMove hdrs t u) : Writing hdrs s payload u u.write := by
  cases hmove with
  | inside ring hring hphase hpushed =>
    obtain ⟨hmem, _⟩ := producerStep_frame hring
    cases hw : t.write <;> rw [hw] at h <;>
      simpa only [Writing, Sent, hpushed, hmem, hphase] using h
  | handed q p ring hw hring hp hpushed =>
    rw [hw] at h
    simpa only [Writing, hpushed] using h
  | made q p hw hp =>
    rw [hw] at h
    obtain ⟨rfl, hreturned, hpushed⟩ := h
    exact ⟨rfl, hreturned, hpushed, t.ring.mem, p, rfl, rfl⟩
  | pushed q p ring hw hphase hring hp hpushed =>
    rw [hw] at h
    obtain ⟨hq, hreturned, hold, m, p', hphase', hmem⟩ := h
    cases hphase.symm.trans hphase'
    refine ⟨hq, hreturned, m, p, ?_⟩
    show ring.pushed = _
    rw [hpushed, hold, hmem, hinv.size]
    rfl
  | notified q hw =>
    rw [hw] at h
    obtain ⟨rfl, hreturned, hsent⟩ := h
    exact ⟨hsent, by rw [hreturned]⟩

/-- Nothing that the write depends on has changed, but that the ring may be less full. -/
structure Unseen (s t : State Q) : Prop where
  write : t.write = s.write
  returned : t.returned = s.returned
  pushed : t.ring.pushed = s.ring.pushed
  producer : t.ring.producer = s.ring.producer
  mem : t.ring.mem = s.ring.mem
  turns : t.ring.producerTurns = s.ring.producerTurns
  full : ¬ s.ring.Full → ¬ t.ring.Full

/-- The handler's steps are not seen by the write. -/
theorem NotifiedMove.unseen (hinv : Inv c t) (hmove : NotifiedMove N t u) : Unseen t u := by
  cases hmove with
  | inside ring hring | handed p ring hn hring | popped ring hn hring =>
    obtain ⟨hmem, hp, hpushed, _⟩ := consumerStep_frame hring
    have hturns := consumerStep_producerTurns hring
    have hfull : ¬ t.ring.Full → ¬ ring.Full := fun hfree => consumerStep_full hinv.ring hfree hring
    exact ⟨rfl, rfl, hpushed, hp, hmem, hturns, hfull⟩
  | _ => exact ⟨rfl, rfl, rfl, rfl, rfl, rfl, id⟩

theorem step_unseen {a : Act} (hinv : Inv c t) (hcall : NoCall t a) (hother : a.isWrite = false)
    (hstep : step hdrs N t a = some u) : Unseen t u := by
  cases step_move hinv.write hinv.notified hstep with
  | notified junk _ hmove => exact hmove.unseen hinv
  | woken | handled => exact ⟨rfl, rfl, rfl, rfl, rfl, rfl, id⟩
  | write => cases hother
  | refused | called => exact hcall.elim

theorem Unseen.writing (h : Unseen t u) (hw : Writing hdrs s payload t t.write) :
    Writing hdrs s payload u u.write := by
  rw [h.write]
  cases hcase : t.write <;> rw [hcase] at hw <;>
    simpa only [Writing, Sent, h.returned, h.pushed, h.producer, h.mem] using hw

theorem step_writing {a : Act} (hinv : Inv c t) (h : Writing hdrs s payload t t.write)
    (hcall : NoCall t a) (hstep : step hdrs N t a = some u) : Writing hdrs s payload u u.write := by
  cases a with
  | write => exact (writeStep_move hinv.write hstep).writing hinv h
  | _ => exact (step_unseen hinv hcall rfl hstep).writing h

/-! ## The way back -/

/-- Steps that are left of a write, at most, once it does not find the ring full. -/
def State.writeTurns (s : State Q) : Nat :=
  match s.write with
  | .newBlock _ => 5 + s.ring.producerTurns
  | .makePkt _ => 5
  | .push _ => 1 + s.ring.producerTurns
  | .notify _ => 1
  | .idle => 0

/-- While the write looks for a block, one is free. -/
def Roomy (s : State Q) : Prop := s.ring.producer.phase = .newBlock → ¬ s.ring.Full

theorem Unseen.roomy (h : Unseen t u) (hroom : Roomy t) : Roomy u := by
  intro hphase
  rw [h.producer] at hphase
  exact h.full (hroom hphase)

theorem WriteMove.roomy (hroom : Roomy t) (hmove : WriteMove hdrs t u) :
    Roomy u := by
  cases hmove with
  | inside ring hring hphase hpushed =>
    intro hnew
    exact fun hfull => hroom (hphase.symm.trans hnew) ((producerStep_full hring hpushed).mp hfull)
  | handed q p ring hw hring hp =>
    intro hnew
    cases (congrArg ProducerPc.phase hp).symm.trans hnew
  | made q p hw hp =>
    intro hnew
    cases hnew
  | pushed q p ring hw hphase hring hp =>
    intro hnew
    cases (congrArg ProducerPc.phase hp).symm.trans hnew
  | notified q hw => exact hroom

/-- Every step of ping_pong brings the write nearer to its end. -/
theorem WriteMove.writeTurns (hinv : Inv c t) (hroom : Roomy t) (hmove : WriteMove hdrs t u) :
    u.writeTurns < t.writeTurns := by
  have hat := hinv.write
  unfold State.writeTurns
  cases hmove with
  | inside ring hring hphase =>
    have hturns := producerStep_producerTurns hinv.ring hroom hring
    cases hw : t.write with
    | newBlock q | push q =>
      dsimp only
      omega
    | makePkt q =>
      rw [hw] at hat
      obtain ⟨p, hat⟩ := hat
      cases (producerStep_block hat).symm.trans hring
    | idle | notify q =>
      rw [hw] at hat
      cases (producerStep_idle hat).symm.trans hring
  | handed q p ring hw hring =>
    have hturns := producerStep_producerTurns hinv.ring hroom hring
    rw [hw]
    dsimp only
    omega
  | made q p hw hp =>
    rw [hw]
    dsimp only [State.producerTurns]
    omega
  | pushed q p ring hw hphase hring =>
    have hturns := producerStep_producerTurns hinv.ring hroom hring
    rw [hw]
    dsimp only
    omega
  | notified q hw =>
    rw [hw]
    exact Nat.one_pos

theorem Unseen.writeTurns (h : Unseen t u) : u.writeTurns = t.writeTurns := by
  rw [State.writeTurns, State.writeTurns, h.write, h.turns]

theorem State.writeTurns_le (s : State Q) : s.writeTurns ≤ 14 := by
  have := s.ring.producerTurns_le
  unfold State.writeTurns
  cases s.write <;> dsimp only <;> omega

/-- Until it is back, ping_pong can take its next step. -/
theorem writeStep_enabled (hinv : Inv c t) : t.write = .idle ∨ ∃ u, writeStep hdrs t = some u := by
  have hat := hinv.write
  unfold writeStep
  cases hw : t.write with
  | idle => exact .inl rfl
  | newBlock q =>
    rw [hw] at hat
    obtain ⟨ring, hring⟩ := producerStep_enabled (.inl hat)
    exact .inr ⟨_, by rw [hring]; rfl⟩
  | makePkt q =>
    rw [hw] at hat
    obtain ⟨p, hat⟩ := hat
    simp only [ProducerPc.phase_block.mp hat]
    exact .inr ⟨_, rfl⟩
  | push q =>
    rw [hw] at hat
    obtain ⟨ring, hring⟩ := producerStep_enabled (.inr hat)
    exact .inr ⟨_, by rw [hring]; rfl⟩
  | notify q => exact .inr ⟨_, rfl⟩

/-- A write that does not find the ring full comes back. -/
theorem comesBack (hihl : hdrs.ip.ihl = 5) (hinv : Inv c t) (hfree : ¬ t.ring.Full) :
    ComesBack hdrs N t := by
  intro as u hexec
  have hkeep : ∀ v a w, Inv c v ∧ Roomy v → ((machine hdrs N).restrict NoCall).step v a = some w →
      (Inv c w ∧ Roomy w) ∧ w.writeTurns + (if a.isWrite then 1 else 0) ≤ v.writeTurns := by
    intro v a w h hstep
    obtain ⟨hcall, hstep⟩ := Machine.restrict_step.mp hstep
    have hnext := step_inv hihl h.1 hstep
    cases hw : a.isWrite with
    | false =>
      have hsame := step_unseen h.1 hcall hw hstep
      exact ⟨⟨hnext, hsame.roomy h.2⟩, Nat.le_of_eq hsame.writeTurns⟩
    | true =>
      cases a with
      | write =>
        have hmove := writeStep_move h.1.write hstep
        exact ⟨⟨hnext, hmove.roomy h.2⟩, hmove.writeTurns h.1 h.2⟩
      | _ => cases hw
  have hstart : Inv c t ∧ Roomy t := ⟨hinv, fun _ => hfree⟩
  have hcount := Machine.countP_le_rank Act.isWrite State.writeTurns (fun v => Inv c v ∧ Roomy v)
    (fun v a w h hstep => (hkeep v a w h hstep).1) (fun v a w h hstep => (hkeep v a w h hstep).2)
    hstart hexec
  have hend := (Machine.reach_of_exec as hexec).invariant (fun v => Inv c v ∧ Roomy v) hstart
    fun v a w h _ hstep => (hkeep v a w h hstep).1
  have hle := t.writeTurns_le
  exact ⟨by omega, writeStep_enabled hend.1⟩

/-! ## The whole call -/

/-- The step that brings the write back has set the notification. -/
theorem WriteMove.pending (hinv : Inv c t) (hmove : WriteMove hdrs t u) (hidle : u.write = .idle) :
    u.pending = true := by
  have hat := hinv.write
  cases hmove with
  | inside ring hring =>
    have hw : t.write = .idle := hidle
    rw [hw] at hat
    cases (producerStep_idle hat).symm.trans hring
  | handed | made | pushed => cases hidle
  | notified => rfl

/-- A write under way carries its payload. -/
theorem carries (hihl : hdrs.ip.ihl = 5) (hinv : Inv c t) (h : Writing hdrs s payload t t.write)
    (hrun : (machine hdrs N).Run NoCall t u) : Carries hdrs N s payload u := by
  obtain ⟨hinv, hwriting⟩ := hrun.invariant (fun u => Inv c u ∧ Writing hdrs s payload u u.write)
    ⟨hinv, h⟩ fun _ _ _ h hcall hstep => ⟨step_inv hihl h.1 hstep, step_writing h.1 h.2 hcall hstep⟩
  refine ⟨comesBack hihl hinv, fun v hstep => ?_, fun hidle => ?_⟩
  · exact (writeStep_move hinv.write hstep).pending hinv
  · rw [hidle] at hwriting
    exact hwriting

theorem accepts_of_small (hihl : hdrs.ip.ihl = 5) (hinv : Inv c s) (hidle : s.write = .idle)
    (hsmall : payload.length ≤ 1500) : Accepts hdrs N s payload := by
  have hcall : step hdrs N s (.call payload) = some { s with
      ring := { s.ring with producer := .newBlockLoadBack }
      write := .newBlock payload, calls := s.calls ++ [payload] } := by
    simp only [step, hidle]
    rw [if_neg (by omega)]
  exact ⟨_, hcall, fun u hrun => carries hihl (step_inv hihl hinv hcall) ⟨rfl, rfl, rfl⟩ hrun⟩

theorem refuses_of_large (hidle : s.write = .idle) (hlarge : 1500 < payload.length) :
    Refuses hdrs N s payload := by
  refine ⟨{ s with calls := s.calls ++ [payload], returned := s.returned ++ [0] }, ?_, hidle, rfl, rfl,
    rfl⟩
  simp only [step, hidle]
  rw [if_pos hlarge]

theorem not_accepts_of_large (hidle : s.write = .idle) (hlarge : 1500 < payload.length) :
    ¬ Accepts hdrs N s payload := by
  rintro ⟨t, hstep, hall⟩
  obtain ⟨t', hstep', hback, _, hring, _⟩ := (refuses_of_large hidle hlarge : Refuses hdrs N s payload)
  cases hstep.symm.trans hstep'
  obtain ⟨⟨m, p, hpushed⟩, _⟩ := (hall t .refl).sent hback
  rw [hring] at hpushed
  have hlen := congrArg List.length hpushed
  rw [List.length_append, List.length_singleton] at hlen
  omega

/-- **The payloads a write takes are those that fit a frame, but for 28 lengths.** In
every state the two domains reach, between two writes, and for every payload: that the
write takes it just when the packet made for it is a legal one for the MTU of 1500, and
otherwise refuses it with no effect, holds if and only if the payload is not from 1473
to 1500 bytes long. -/
theorem write_accepts_iff {q₀ q : SpscQueue} {b e : Nat} (he : e < 2 ^ 64)
    (hinit : spscInit q₀ b e 11 = (true, q)) {mem rxData : Mem} {rxFree rxActive : Q}
    {pending : Bool} {srcMac dstMac : Vector Byte 6} {srcIp dstIp : BitVec 32}
    {srcPort dstPort : BitVec 16} {udpHdr : Udphdr} {hdrs : TxHdrs}
    (hhdrs : hdrs = TxHdrs.make srcMac dstMac srcIp dstIp srcPort dstPort udpHdr) {s : State Q}
    (hreach : (machine hdrs N).Reach (State.start q mem rxData rxFree rxActive pending) s)
    (hidle : s.write = .idle) (payload : List Byte) :
    ((Accepts hdrs N s payload ↔ ∀ m p, LegalPkt payload.length (madeBlock hdrs payload m p)) ∧
        (¬ Accepts hdrs N s payload → Refuses hdrs N s payload)) ↔
      payload.length ≤ 1472 ∨ 1500 < payload.length := by
  have hihl : hdrs.ip.ihl = 5 := by
    rw [hhdrs]
    rfl
  have hinv := reach_inv hihl he hinit hreach
  simp only [legalPkt_iff, forall_const]
  rcases Nat.lt_or_ge 1500 payload.length with hlarge | hsmall
  · have hno : ¬ Accepts hdrs N s payload := not_accepts_of_large hidle hlarge
    refine ⟨fun _ => .inr hlarge, fun _ => ⟨⟨fun h => absurd h hno, fun h => by omega⟩, fun _ => ?_⟩⟩
    exact refuses_of_large hidle hlarge
  · have hyes : Accepts hdrs N s payload := accepts_of_small hihl hinv hidle hsmall
    constructor
    · rintro ⟨hiff, _⟩
      exact .inl (hiff.mp hyes)
    · rintro (hfits | hlarge)
      · exact ⟨⟨fun _ => hfits, fun _ => hyes⟩, fun hno => absurd hyes hno⟩
      · omega

/-- The longest payload that fits, from the start of the small system. -/
theorem write_accepts_1472 :
    Accepts pingPongHdrs (listRing 2) (smallStart 0) (List.replicate 1472 7) := by
  have hhdrs : pingPongHdrs = TxHdrs.make _ _ _ _ _ _ _ := rfl
  have hfits : (List.replicate 1472 (7 : Byte)).length ≤ 1472 := by rw [List.length_replicate]
  obtain ⟨hiff, _⟩ := (write_accepts_iff (N := listRing 2) (s := smallStart 0) (by decide)
    twoFrames_init hhdrs .refl rfl _).mpr (.inl hfits)
  exact hiff.mpr fun _ _ => legalPkt_iff.mpr hfits

/-- One byte more: the write takes it, the packet is pushed and the guest's VMM notified, and
the packet says 1501 bytes. -/
theorem write_accepts_1473 :
    Accepts pingPongHdrs (listRing 2) (smallStart 0) (List.replicate 1473 7) ∧
      (∀ m p, Datagram.totLen (madeBlock pingPongHdrs (List.replicate 1473 7) m p) = 1501 ∧
        ¬ LegalPkt 1473 (madeBlock pingPongHdrs (List.replicate 1473 7) m p)) ∧
      ∃ s block, (machine pingPongHdrs (listRing 2)).Reach (smallStart 0) s ∧ s.returned = [1473] ∧
        s.ring.pushed = [block] ∧ Datagram.totLen block.2 = 1501 ∧ s.pending = true := by
  have hstart : (machine pingPongHdrs (listRing 2)).Reach (smallStart 0) (smallStart 0) := .refl
  have hinv : Inv 0 (smallStart 0) := reach_inv rfl (by decide) twoFrames_init hstart
  have hlen : (List.replicate 1473 (7 : Byte)).length = 1473 := List.length_replicate
  have htot : ∀ m p, Datagram.totLen (madeBlock pingPongHdrs (List.replicate 1473 7) m p) = 1501 := by
    intro m p
    rw [totLen_madeBlock, hlen]
    rfl
  refine ⟨accepts_of_small rfl hinv rfl (by rw [hlen]; decide), fun m p => ⟨htot m p, fun hlegal => ?_⟩, ?_⟩
  · have hmtu := hlegal.mtu
    rw [htot, ethMtu] at hmtu
    omega
  · obtain ⟨s, hreach, hreturned, hpushed, hpending⟩ := (machine pingPongHdrs (listRing 2)).exists_reach
      (P := fun s => s.returned = [1473] ∧
        s.ring.pushed.map (fun block => Datagram.totLen block.2) = [1501] ∧ s.pending = true)
      (s := smallStart 0) (runWrite (List.replicate 1473 7)) (by decide +kernel)
    obtain ⟨block, hblock, htot⟩ := List.map_eq_singleton_iff.mp hpushed
    exact ⟨s, block, hreach, hreturned, hblock, htot, hpending⟩

end MicroRosDemos.Sel4.ToGuest
