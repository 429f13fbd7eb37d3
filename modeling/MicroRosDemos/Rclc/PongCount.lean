import Mathlib.Data.Fintype.Card
import Mathlib.Data.List.Pairwise
import MicroRosDemos.Rclc.PingPong

/-!
# What the pong count counts

`pong_count` is set to zero with each new ping, and counts the pongs that read as the
latest ping does. Every pong is somebody's answer to a ping that was handed to it, so the
count is one of answers (`Tally`). When the numbers of the pings differ, the pings that are
handed over can be told apart, and no ping and no pong is handed to a process twice, it is the
number of the other processes whose answers have come back since the last tick, and never more
than there are other processes (`pongCount_others`).
-/

namespace MicroRosDemos.Rclc.PingPong

open MicroRosDemos.Lib

/-- The processes, and for each of them the pongs that it was handed since its last tick, by
their places on the topic. -/
structure Counted (ι : Type) extends State ι where
  since : ι → List Nat

variable (rand : Nat → Int) {ι : Type} [DecidableEq ι]

/-- The record of the pongs, along a step. -/
def sinceAfter (since : ι → List Nat) : Act ι → ι → List Nat
  | .tick i _ _ _ => Function.update since i []
  | .ping _ _ => since
  | .pong i k => Function.update since i (since i ++ [k])

def countedStep (s : Counted ι) (a : Act ι) : Option (Counted ι) :=
  (step rand s.toState a).map fun t => ⟨t, sinceAfter s.since a⟩

/-- The machine of the processes, with the record. -/
def counting : Machine (Counted ι) (Act ι) := ⟨countedStep rand⟩

def Counted.start (buffer : ι → List Byte) : Counted ι := ⟨State.start rand buffer, fun _ => []⟩

/-- The handed pings that were answered. -/
def State.answers (s : State ι) : List (Handed ι) := s.handed.filter Handed.ponged

/-- The pong at a place on the topic reads as the latest ping of the process. -/
def State.Reads (s : State ι) (i : ι) (k : Nat) : Bool :=
  (s.pongs[k]?).any fun msg => sameString (s.node i).outcomingPing.data msg.data

/-- The pongs handed to a process since its last tick that read as its latest ping. -/
def Counted.counts (s : Counted ι) (i : ι) : List Nat := (s.since i).filter (s.Reads i)

/-- The pong that carries this answer was handed to the process since its last tick. -/
def Counted.Back (s : Counted ι) (i : ι) (x : Handed ι) : Prop := ∃ k ∈ s.since i, s.answers[k]? = some x

/-- A process has answered the latest ping of another one, and the pong has come back. -/
def Counted.Answered (rand : Nat → Int) (s : Counted ι) (i j : ι) : Prop :=
  ∃ x, s.Back i x ∧ x.receiver = j ∧ x.ping.sender ≠ j ∧
    cstring (s.node i).outcomingPing.data = pairText x.ping.number (rand 0)

/-- Numbers are drawn that no ping on the topic has, no process is handed a ping twice or a
pong twice between two of its ticks, and the pings that are handed over can be told apart. -/
def Proper (s : Counted ι) : Act ι → Prop
  | .tick i _ _ _ => ∀ p ∈ s.pings, p.number ≠ rand (s.node i).calls
  | .ping i k => ∀ p, s.pings[k]? = some p →
      TellsApart (s.node i) (p.sender = i) p ∧ ∀ x ∈ s.handed, x.receiver = i → x.ping.number ≠ p.number
  | .pong i k => k ∉ s.since i

/-! ## The count -/

/-- What every run keeps: the pongs are the answers, and each process has counted those that
it was handed and that read as its ping. -/
structure Tally (s : Counted ι) : Prop where
  inv : Inv rand s.toState
  pinged : ∀ x ∈ s.handed, x.ping ∈ s.pings
  pongs : s.pongs = s.answers.map fun x => x.ping.msg
  placed : ∀ i, ∀ k ∈ s.since i, k < s.pongs.length
  count : ∀ i, (s.node i).pongCount = (s.counts i).length

variable {rand} {s t : Counted ι}

omit [DecidableEq ι] in
theorem start_tally (buffer : ι → List Byte) : Tally rand (Counted.start rand buffer) where
  inv := start_inv buffer
  pinged _ h := absurd h List.not_mem_nil
  pongs := rfl
  placed _ _ h := absurd h List.not_mem_nil
  count _ := rfl

omit [DecidableEq ι] in
/-- A pong that is there reads as before, while the process keeps its ping. -/
theorem reads_congr {s t : State ι} {i : ι} {k : Nat} (hk : k < s.pongs.length)
    (hpongs : ∃ more, t.pongs = s.pongs ++ more)
    (hdata : (t.node i).outcomingPing.data = (s.node i).outcomingPing.data) : t.Reads i k = s.Reads i k := by
  obtain ⟨more, hpongs⟩ := hpongs
  unfold State.Reads
  rw [hpongs, List.getElem?_append_left hk, hdata]

omit [DecidableEq ι] in
/-- A process that nothing is done to has counted what it had. -/
theorem Tally.count_congr {since : ι → List Nat} {u : State ι} {i : ι} (h : Tally rand s)
    (hsince : since i = s.since i) (hpongs : ∃ more, u.pongs = s.pongs ++ more)
    (hnode : u.node i = s.node i) : (u.node i).pongCount = (Counted.counts ⟨u, since⟩ i).length := by
  have hcounts : Counted.counts ⟨u, since⟩ i = s.counts i := by
    unfold Counted.counts
    dsimp only
    rw [hsince]
    exact List.filter_congr fun k hk => reads_congr (h.placed i k hk) hpongs (by rw [hnode])
  rw [hcounts, hnode]
  exact h.count i

theorem pong_outcomingPing (n : Node) (msg : Msg) :
    (pongSubscriptionCallback n msg).outcomingPing = n.outcomingPing := by
  unfold pongSubscriptionCallback
  split <;> rfl

theorem pong_pongCount (n : Node) (msg : Msg) :
    (pongSubscriptionCallback n msg).pongCount =
      n.pongCount + if sameString n.outcomingPing.data msg.data then 1 else 0 := by
  unfold pongSubscriptionCallback
  split <;> rfl

/-- A process answers a ping with the ping. -/
theorem pingSubscriptionCallback_eq (n : Node) (msg : Msg) :
    pingSubscriptionCallback n msg = none ∨ pingSubscriptionCallback n msg = some msg := by
  unfold pingSubscriptionCallback
  split
  · exact .inl rfl
  · exact .inr rfl

theorem step_tally {a : Act ι} (h : Tally rand s) (hstep : countedStep rand s a = some t) : Tally rand t := by
  obtain ⟨u, hu, rfl⟩ := Option.map_eq_some_iff.mp hstep
  have hinv := step_inv h.inv hu
  cases a with
  | tick i sec nanosec ok =>
    cases hu
    refine ⟨hinv, fun x hx => ?_, h.pongs, fun j => ?_, fun j => ?_⟩
    · have hold := h.pinged x hx
      cases ok with
      | false => exact hold
      | true => exact List.mem_append_left _ hold
    · dsimp only [sinceAfter]
      rcases eq_or_ne j i with rfl | hne
      · rw [Function.update_self]
        exact fun k hk => absurd hk List.not_mem_nil
      · rw [Function.update_of_ne hne]
        exact h.placed j
    · rcases eq_or_ne j i with rfl | hne
      · simp only [Counted.counts, sinceAfter, Function.update_self, List.filter_nil, List.length_nil]
        rfl
      · exact h.count_congr (Function.update_of_ne hne _ _) ⟨[], (List.append_nil _).symm⟩
          (Function.update_of_ne hne _ _)
  | ping i k =>
    obtain ⟨p, hp, rfl⟩ := Option.map_eq_some_iff.mp hu
    refine ⟨hinv, forall_mem_grown.mpr ⟨h.pinged, List.mem_of_getElem? hp⟩, ?_, fun j l hl => ?_, fun j => ?_⟩
    · have hpongs := h.pongs
      unfold State.answers at hpongs ⊢
      dsimp only
      rw [List.filter_append, List.map_append, ← hpongs]
      rcases pingSubscriptionCallback_eq (s.node i) p.msg with hnone | hsome
      · rw [hnone]
        rfl
      · rw [hsome]
        rfl
    · have hlt := h.placed j l hl
      dsimp only
      rw [List.length_append]
      omega
    · exact h.count_congr rfl ⟨_, rfl⟩ rfl
  | pong i k =>
    obtain ⟨msg, hmsg, rfl⟩ := Option.map_eq_some_iff.mp hu
    refine ⟨hinv, h.pinged, h.pongs, fun j => ?_, fun j => ?_⟩
    · dsimp only [sinceAfter]
      rcases eq_or_ne j i with rfl | hne
      · rw [Function.update_self]
        exact forall_mem_grown.mpr ⟨h.placed j, (List.getElem?_eq_some_iff.mp hmsg).1⟩
      · rw [Function.update_of_ne hne]
        exact h.placed j
    · rcases eq_or_ne j i with rfl | hne
      · -- the pong is counted just when it reads as the ping, and the others read as before
        have hread : ∀ l, State.Reads { s.toState with
            node := Function.update s.node j (pongSubscriptionCallback (s.node j) msg) } j l = s.Reads j l := by
          intro l
          unfold State.Reads
          dsimp only
          rw [Function.update_self, pong_outcomingPing]
        have hnew : s.Reads j k = sameString (s.node j).outcomingPing.data msg.data := by
          unfold State.Reads
          rw [hmsg]
          rfl
        unfold Counted.counts
        dsimp only [sinceAfter]
        rw [Function.update_self, Function.update_self, pong_pongCount, h.count j, Counted.counts,
          List.filter_congr fun l _ => hread l, List.filter_append, List.length_append]
        congr 1
        rw [List.filter_singleton, hnew]
        cases sameString (s.node j).outcomingPing.data msg.data <;> rfl
      · exact h.count_congr (Function.update_of_ne hne _ _) ⟨[], (List.append_nil _).symm⟩
          (Function.update_of_ne hne _ _)

/-! ## Whose answers they are -/

/-- What a proper run keeps besides: each number is that of one ping, each process was handed
a ping once, and those who answered are the others. -/
structure Distinct (s : Counted ι) : Prop where
  numbers : s.pings.Pairwise fun p q => p.number ≠ q.number
  once : s.handed.Pairwise fun x y => x.ping.number = y.ping.number → x.receiver ≠ y.receiver
  others : ∀ x ∈ s.handed, x.ponged = true ↔ x.ping.sender ≠ x.receiver
  nodup : ∀ i, (s.since i).Nodup

omit [DecidableEq ι] in
theorem start_distinct (buffer : ι → List Byte) : Distinct (Counted.start rand buffer) where
  numbers := .nil
  once := .nil
  others _ h := absurd h List.not_mem_nil
  nodup _ := .nil

/-- A list whose entries differ pairwise from one another, and from a new one. -/
theorem pairwise_grown {α : Type*} {r : α → α → Prop} {l : List α} {x : α} (hl : l.Pairwise r)
    (hx : ∀ y ∈ l, r y x) : (l ++ [x]).Pairwise r :=
  List.pairwise_append.mpr ⟨hl, List.pairwise_singleton r x, fun y hy z hz => by
    rw [List.mem_singleton.mp hz]
    exact hx y hy⟩

theorem step_distinct {a : Act ι} (h : Tally rand s) (hd : Distinct s) (hok : Proper rand s a)
    (hstep : countedStep rand s a = some t) : Distinct t := by
  obtain ⟨u, hu, rfl⟩ := Option.map_eq_some_iff.mp hstep
  cases a with
  | tick i sec nanosec ok =>
    cases hu
    refine ⟨?_, hd.once, hd.others, fun j => ?_⟩
    · cases ok with
      | false => exact hd.numbers
      | true => exact pairwise_grown hd.numbers hok
    · dsimp only [sinceAfter]
      rcases eq_or_ne j i with rfl | hne
      · rw [Function.update_self]
        exact .nil
      · rw [Function.update_of_ne hne]
        exact hd.nodup j
  | ping i k =>
    have hothers := step_handed h.inv (a := .ping i k) (fun p hp => (hok p hp).1) hd.others hu
    obtain ⟨p, hp, rfl⟩ := Option.map_eq_some_iff.mp hu
    refine ⟨hd.numbers, pairwise_grown hd.once fun x hx hnumber hreceiver => ?_, hothers, hd.nodup⟩
    exact (hok p hp).2 x hx hreceiver hnumber
  | pong i k =>
    obtain ⟨msg, _, rfl⟩ := Option.map_eq_some_iff.mp hu
    refine ⟨hd.numbers, hd.once, hd.others, fun j => ?_⟩
    dsimp only [sinceAfter]
    rcases eq_or_ne j i with rfl | hne
    · rw [Function.update_self]
      exact pairwise_grown (hd.nodup j) fun l hl heq => hok (heq ▸ hl)
    · rw [Function.update_of_ne hne]
      exact hd.nodup j

omit [DecidableEq ι] in
/-- The pong of an answer reads as the latest ping of a process when the ping answered does. -/
theorem Tally.reads_iff (h : Tally rand s) {i : ι} {k : Nat} {x : Handed ι} (hx : s.answers[k]? = some x) :
    s.Reads i k = true ↔ cstring (s.node i).outcomingPing.data = pairText x.ping.number (rand 0) := by
  have hmem := (List.mem_filter.mp (List.mem_of_getElem? hx)).1
  obtain ⟨htext, _⟩ := h.inv.pings x.ping (h.pinged x hmem)
  have hdata : cstring x.ping.msg.data = pairText x.ping.number (rand 0) := by
    rw [Msg.data, htext, cstring_pairText]
  unfold State.Reads
  rw [h.pongs, List.getElem?_map, hx, ← hdata]
  exact beq_iff_eq

omit [DecidableEq ι] in
/-- A counted pong is an answer to a ping that reads as the process's own. -/
theorem Tally.counts_answer (h : Tally rand s) {i : ι} {k : Nat} (hk : k ∈ s.counts i) :
    ∃ x, s.answers[k]? = some x ∧
      cstring (s.node i).outcomingPing.data = pairText x.ping.number (rand 0) := by
  obtain ⟨hsince, hreads⟩ := List.mem_filter.mp hk
  cases hx : s.answers[k]? with
  | none =>
    unfold State.Reads at hreads
    rw [h.pongs, List.getElem?_map, hx] at hreads
    cases hreads
  | some x => exact ⟨x, rfl, (h.reads_iff hx).mp hreads⟩

/-- The process whose answer the pong at a place is, or `i` if there is none. -/
def State.answerer (s : State ι) (i : ι) (k : Nat) : ι := ((s.answers[k]?).map Handed.receiver).getD i

omit [DecidableEq ι] in
theorem answerer_eq {s : State ι} {i : ι} {k : Nat} {x : Handed ι} (h : s.answers[k]? = some x) :
    s.answerer i k = x.receiver := by
  rw [State.answerer, h]
  rfl

omit [DecidableEq ι] in
/-- All counted pongs answer one ping, each the answer of another process. -/
theorem Distinct.counts (hd : Distinct s) (h : Tally rand s) {i : ι} {k l : Nat} (hk : k ∈ s.counts i)
    (hl : l ∈ s.counts i) (hkl : k < l) : s.answerer i k ≠ s.answerer i l := by
  obtain ⟨x, hx, hxtext⟩ := h.counts_answer hk
  obtain ⟨y, hy, hytext⟩ := h.counts_answer hl
  have hnumber : x.ping.number = y.ping.number := (pairText_inj (hxtext.symm.trans hytext)).1
  have honce : s.answers.Pairwise fun x y => x.ping.number = y.ping.number → x.receiver ≠ y.receiver :=
    hd.once.sublist List.filter_sublist
  obtain ⟨hklt, hxk⟩ := List.getElem?_eq_some_iff.mp hx
  obtain ⟨hllt, hyl⟩ := List.getElem?_eq_some_iff.mp hy
  have hne := List.pairwise_iff_getElem.mp honce k l hklt hllt hkl
  rw [answerer_eq hx, answerer_eq hy, ← hxk, ← hyl]
  exact hne (by rw [← hxk, ← hyl] at hnumber; exact hnumber)

omit [DecidableEq ι] in
theorem Distinct.answerer_injOn (hd : Distinct s) (h : Tally rand s) (i : ι) :
    ∀ k ∈ s.counts i, ∀ l ∈ s.counts i, s.answerer i k = s.answerer i l → k = l := by
  intro k hk l hl heq
  rcases Nat.lt_trichotomy k l with hlt | hkl | hgt
  · exact absurd heq (hd.counts h hk hl hlt)
  · exact hkl
  · exact absurd heq.symm (hd.counts h hl hk hgt)

omit [DecidableEq ι] in
/-- Pings of one number are one ping. -/
theorem Distinct.ping_eq (hd : Distinct s) {p q : Ping ι} (hp : p ∈ s.pings) (hq : q ∈ s.pings)
    (h : p.number = q.number) : p = q := by
  have hsymm : Std.Symm fun p q : Ping ι => p.number ≠ q.number := ⟨fun _ _ => Ne.symm⟩
  by_contra hne
  exact hd.numbers.forall hp hq hne h

/-- The processes whose answers a process has counted. -/
def Counted.answerers (s : Counted ι) (i : ι) : Finset ι := (s.counts i).toFinset.image (s.answerer i)

/-- As many as it has counted. -/
theorem Distinct.card_answerers (hd : Distinct s) (h : Tally rand s) (i : ι) :
    (s.answerers i).card = (s.node i).pongCount := by
  have hinj := hd.answerer_injOn h i
  have hnodup : (s.counts i).Nodup := (hd.nodup i).filter _
  rw [Counted.answerers, Finset.card_image_of_injOn, List.toFinset_card_of_nodup hnodup, h.count i]
  intro k hk l hl
  exact hinj k (List.mem_toFinset.mp hk) l (List.mem_toFinset.mp hl)

/-- They are those whose answers have come back. -/
theorem Distinct.mem_answerers (hd : Distinct s) (h : Tally rand s) {i j : ι} :
    j ∈ s.answerers i ↔ s.Answered rand i j := by
  constructor
  · intro hj
    obtain ⟨k, hk, rfl⟩ := Finset.mem_image.mp hj
    have hcounted := List.mem_toFinset.mp hk
    obtain ⟨x, hx, htext⟩ := h.counts_answer hcounted
    obtain ⟨hmem, hponged⟩ := List.mem_filter.mp (List.mem_of_getElem? hx)
    rw [answerer_eq hx]
    exact ⟨x, ⟨k, (List.mem_filter.mp hcounted).1, hx⟩, rfl, (hd.others x hmem).mp hponged, htext⟩
  · rintro ⟨x, ⟨k, hsince, hx⟩, rfl, _, htext⟩
    have hcounted : k ∈ s.counts i := List.mem_filter.mpr ⟨hsince, (h.reads_iff hx).mpr htext⟩
    exact Finset.mem_image.mpr ⟨k, List.mem_toFinset.mpr hcounted, answerer_eq hx⟩

omit [DecidableEq ι] in
theorem Counted.Back.handed {i : ι} {x : Handed ι} (h : s.Back i x) : x ∈ s.handed := by
  obtain ⟨k, _, hx⟩ := h
  exact (List.mem_filter.mp (List.mem_of_getElem? hx)).1

/-- The sender of the ping is not one of them. -/
theorem Distinct.pongCount_le [Fintype ι] (hd : Distinct s) (h : Tally rand s) (i : ι) :
    (s.node i).pongCount ≤ Fintype.card ι - 1 := by
  rw [← hd.card_answerers h i]
  rcases Finset.eq_empty_or_nonempty (s.answerers i) with hnone | ⟨j, hj⟩
  · rw [hnone, Finset.card_empty]
    exact Nat.zero_le _
  · obtain ⟨x, hx, _, _, hxtext⟩ := (hd.mem_answerers h).mp hj
    have hsub : s.answerers i ⊆ Finset.univ.erase x.ping.sender := by
      intro l hl
      obtain ⟨y, hy, rfl, hother, hytext⟩ := (hd.mem_answerers h).mp hl
      have hping : y.ping = x.ping := hd.ping_eq (h.pinged y hy.handed) (h.pinged x hx.handed)
        (pairText_inj (hytext.symm.trans hxtext)).1
      refine Finset.mem_erase.mpr ⟨fun heq => hother ?_, Finset.mem_univ _⟩
      rw [hping, heq]
    have hle := Finset.card_le_card hsub
    rwa [Finset.card_erase_of_mem (Finset.mem_univ _), Finset.card_univ] at hle

theorem run_tally {buffer : ι → List Byte}
    (hrun : (counting rand).Run (Proper rand) (Counted.start rand buffer) s) :
    Tally rand s ∧ Distinct s :=
  hrun.invariant (fun s => Tally rand s ∧ Distinct s) ⟨start_tally buffer, start_distinct buffer⟩
    fun _ _ _ hs hok hstep => ⟨step_tally hs.1 hstep, step_distinct hs.1 hs.2 hok hstep⟩

instance (n : Node) (own : Prop) [Decidable own] (p : Ping ι) : Decidable (TellsApart n own p) :=
  inferInstanceAs (Decidable (_ ∧ _))

instance (s : Counted ι) : (a : Act ι) → Decidable (Proper rand s a)
  | .tick i _ _ _ => inferInstanceAs (Decidable (∀ p ∈ s.pings, p.number ≠ rand (s.node i).calls))
  | .ping i k => inferInstanceAs (Decidable (∀ p ∈ s.pings[k]?,
      TellsApart (s.node i) (p.sender = i) p ∧ ∀ x ∈ s.handed, x.receiver = i → x.ping.number ≠ p.number))
  | .pong i k => inferInstanceAs (Decidable (k ∉ s.since i))

end MicroRosDemos.Rclc.PingPong
