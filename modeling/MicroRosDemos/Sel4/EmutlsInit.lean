import MicroRosDemos.Lib.Memory
import MicroRosDemos.Sel4.Emutls

/-!
# What emulated TLS starts with

`__emutls_get_address` does not look at `templ`. What a variable holds at its first use
is what the storage holds there, and that nobody has written: the program writes only
to the ranges it was given, all of them in front of `emutls_next`. So a variable that
fits starts with zeros, and with its initialiser just when that is all zeros
(`initialised_iff`).
-/

namespace MicroRosDemos.Sel4.Emutls

open MicroRosDemos.Lib

/-- A call, and the memory before and after it. -/
structure Use (ι : Type*) extends Call ι where
  before : Mem
  after : Mem

/-- A program with its memory, and its calls in order. -/
structure Program (ι : Type*) where
  tls : Tls ι
  mem : Mem
  uses : List (Use ι)

/-- The program calls, or writes some bytes. -/
inductive Act (ι : Type*)
  | getAddress (obj : ι)
  | write (p : Nat) (bs : List Byte)

/-- The storage is static: it is zero when the program starts. -/
def Program.start (ι : Type*) (storage : Storage) (mem : Mem) : Program ι :=
  ⟨Tls.start ι storage, mem.write storage.addr.toNat (List.replicate storageSize 0), []⟩

variable {ι : Type*}

/-- The `n` bytes at `q` are in a range that a call has returned. -/
def HandedOut (objs : ι → EmutlsObject) (p : Program ι) (q n : Nat) : Prop :=
  ∃ u ∈ p.uses, u.ret.toNat ≤ q ∧ q + n ≤ u.ret.toNat + (objs u.obj).size.toNat

instance (objs : ι → EmutlsObject) (p : Program ι) (q n : Nat) : Decidable (HandedOut objs p q n) :=
  inferInstanceAs (Decidable (∃ u ∈ p.uses, _ ≤ _ ∧ _ ≤ _))

def program [DecidableEq ι] (objs : ι → EmutlsObject) : Machine (Program ι) (Act ι) where
  step p
    | .getAddress obj =>
      let (ret, tls) := emutlsGetAddress objs obj p.tls
      -- a call stores to loc.ptr and to emutls_next, and nowhere else
      let after := p.mem
      some ⟨tls, after, p.uses ++ [⟨⟨obj, ret⟩, p.mem, after⟩]⟩
    | .write q bs =>
      if HandedOut objs p q bs.length then some { p with mem := p.mem.write q bs } else none

/-- What a variable has to start with: its template, or zeros if it has none. -/
def EmutlsObject.initialiser (obj : EmutlsObject) (m : Mem) : List Byte :=
  if obj.templ = 0 then List.replicate obj.size.toNat 0 else m.read obj.templ.toNat obj.size.toNat

/-- The contract of emulated TLS: the first call on an object gives it its initialiser, and
a later one leaves its bytes as they are. -/
structure Initialised (objs : ι → EmutlsObject) (uses : List (Use ι)) : Prop where
  first : ∀ k u, uses[k]? = some u → (∀ v ∈ uses.take k, v.obj ≠ u.obj) →
    u.after.read u.ret.toNat (objs u.obj).size.toNat = (objs u.obj).initialiser u.before
  later : ∀ k u, uses[k]? = some u → (∃ v ∈ uses.take k, v.obj = u.obj) →
    u.after.read u.ret.toNat (objs u.obj).size.toNat = u.before.read u.ret.toNat (objs u.obj).size.toNat

/-- A first use is of an object that fits. -/
def FirstFits (objs : ι → EmutlsObject) (storage : Storage) (p : Program ι) : Act ι → Prop
  | .getAddress obj => p.tls.loc obj = 0 → Fits objs storage p.tls obj
  | .write _ _ => True

/-- And its initialiser is all zeros. -/
def FirstZero (objs : ι → EmutlsObject) (storage : Storage) (p : Program ι) : Act ι → Prop
  | .getAddress obj => p.tls.loc obj = 0 → Fits objs storage p.tls obj ∧
      (objs obj).initialiser p.mem = List.replicate (objs obj).size.toNat 0
  | .write _ _ => True

variable {objs : ι → EmutlsObject} {storage : Storage} {p q : Program ι} {obj : ι} {mem : Mem}

instance : ∀ a, Decidable (FirstZero objs storage p a)
  | .getAddress obj => inferInstanceAs (Decidable (_ = _ → Fits objs storage p.tls obj ∧ _ = _))
  | .write _ _ => inferInstanceAs (Decidable True)

/-- The calls of the program, without its memory. -/
def Program.toState (p : Program ι) : State ι := ⟨p.tls, p.uses.map Use.toCall⟩

theorem initialised_nil : Initialised objs [] where
  first _ _ hu := absurd hu (by simp)
  later _ _ hu := absurd hu (by simp)

/-- The contract, one call more. -/
theorem initialised_append {uses : List (Use ι)} {u : Use ι} :
    Initialised objs (uses ++ [u]) ↔ Initialised objs uses ∧
      ((∀ v ∈ uses, v.obj ≠ u.obj) →
        u.after.read u.ret.toNat (objs u.obj).size.toNat = (objs u.obj).initialiser u.before) ∧
      ((∃ v ∈ uses, v.obj = u.obj) → u.after.read u.ret.toNat (objs u.obj).size.toNat =
        u.before.read u.ret.toNat (objs u.obj).size.toNat) := by
  have hold {k : Nat} {v : Use ι} (hv : uses[k]? = some v) :
      (uses ++ [u])[k]? = some v ∧ (uses ++ [u]).take k = uses.take k := by
    have hk : k < uses.length := (List.getElem?_eq_some_iff.mp hv).1
    exact ⟨by rw [List.getElem?_append_left hk, hv], List.take_append_of_le_length (Nat.le_of_lt hk)⟩
  have hlast : (uses ++ [u])[uses.length]? = some u := List.getElem?_concat_length
  have hall : (uses ++ [u]).take uses.length = uses := List.take_left
  constructor
  · intro h
    refine ⟨⟨fun k v hv hno => ?_, fun k v hv hsome => ?_⟩, fun hno => ?_, fun hsome => ?_⟩
    · exact h.first k v (hold hv).1 (by rwa [(hold hv).2])
    · exact h.later k v (hold hv).1 (by rwa [(hold hv).2])
    · exact h.first uses.length u hlast (by rwa [hall])
    · exact h.later uses.length u hlast (by rwa [hall])
  · rintro ⟨h, hfirst, hlater⟩
    refine ⟨fun k v hv hno => ?_, fun k v hv hsome => ?_⟩
    · rcases getElem?_grown hv with hv | ⟨rfl, rfl⟩
      · rw [(hold hv).2] at hno
        exact h.first k v hv hno
      · rw [hall] at hno
        exact hfirst hno
    · rcases getElem?_grown hv with hv | ⟨rfl, rfl⟩
      · rw [(hold hv).2] at hsome
        exact h.later k v hv hsome
      · rw [hall] at hsome
        exact hlater hsome

/-- An object that fits does not reach the end of the address space. -/
theorem FirstFits.noWrap (h : FirstFits objs storage p (.getAddress obj)) : NoWrap objs p.tls obj := by
  intro hloc
  have hend := (h hloc).2
  have hinside := storage.inside
  omega

theorem FirstZero.firstFits {a : Act ι} (h : FirstZero objs storage p a) : FirstFits objs storage p a := by
  cases a with
  | getAddress obj => exact fun hloc => (h hloc).1
  | write => trivial

/-- The storage behind `emutls_next` is zero. -/
def Fresh (storage : Storage) (p : Program ι) : Prop :=
  ∀ a, p.tls.next.toNat ≤ a → a < storage.addr.toNat + storageSize → p.mem a = 0

/-- What an object that fits finds at its first use. -/
theorem Fresh.read_place (h : Fresh storage p) (hloc : p.tls.loc obj = 0)
    (hfits : FirstFits objs storage p (.getAddress obj)) :
    p.mem.read ((objs obj).place p.tls.next).toNat (objs obj).size.toNat =
      List.replicate (objs obj).size.toNat 0 := by
  have hplace : ((objs obj).place p.tls.next).toNat = p.tls.placed objs obj :=
    (first_toNat (s := p.toState) hloc hfits.noWrap).1
  have hnext := p.tls.next_le_placed objs obj
  have hend := (hfits hloc).2
  refine List.eq_replicate_iff.mpr ⟨Mem.read_length _ _ _, fun b hb => ?_⟩
  unfold Mem.read at hb
  obtain ⟨i, hi, rfl⟩ := List.mem_map.mp hb
  have hi := List.mem_range.mp hi
  exact h _ (by omega) (by omega)

variable [DecidableEq ι]

/-- A call of the program is a call. -/
theorem getAddress_step (h : (program objs).step p (.getAddress obj) = some q) :
    (machine objs).step p.toState obj = some q.toState ∧ q.mem = p.mem ∧
      q.uses = p.uses ++ [⟨⟨obj, (emutlsGetAddress objs obj p.tls).1⟩, p.mem, p.mem⟩] := by
  have hq : q = ⟨(emutlsGetAddress objs obj p.tls).2, p.mem,
      p.uses ++ [⟨⟨obj, (emutlsGetAddress objs obj p.tls).1⟩, p.mem, p.mem⟩]⟩ := (Option.some.inj h).symm
  subst hq
  refine ⟨?_, rfl, rfl⟩
  unfold Program.toState
  rw [List.map_append]
  rfl

/-- A write is to a range that was returned. -/
theorem write_step {w : Nat} {bs : List Byte} (h : (program objs).step p (.write w bs) = some q) :
    HandedOut objs p w bs.length ∧ q = { p with mem := p.mem.write w bs } := by
  unfold program at h
  dsimp only at h
  split at h
  · next hout => exact ⟨hout, (Option.some.inj h).symm⟩
  · cases h

/-- Without its memory, a run whose first uses fit is a run that does not wrap. -/
theorem run_toState (h : (program objs).Run (FirstFits objs storage) (Program.start ι storage mem) p) :
    (machine objs).Run (fun s => NoWrap objs s.toTls) (State.start ι storage) p.toState := by
  refine Machine.Run.map (f := Program.toState) h fun p a q hok hstep => ?_
  cases a with
  | getAddress obj => exact .single hok.noWrap (getAddress_step hstep).1
  | write =>
    obtain ⟨_, rfl⟩ := write_step hstep
    exact .refl

theorem step_fresh {a : Act ι} (hinv : Inv objs p.toState) (hp : Fresh storage p)
    (hok : FirstFits objs storage p a) (h : (program objs).step p a = some q) : Fresh storage q := by
  cases a with
  | getAddress obj =>
    obtain ⟨hstep, hmem, _⟩ := getAddress_step h
    have hle : p.tls.next.toNat ≤ q.tls.next.toNat := step_next_le hok.noWrap hstep
    intro b hlo hhi
    rw [hmem]
    exact hp b (hle.trans hlo) hhi
  | write w bs =>
    obtain ⟨⟨u, hu, hlo, hhi⟩, rfl⟩ := write_step h
    -- what is written is in front of emutls_next
    have hbelow := hinv.sound.below u.toCall (List.mem_map_of_mem hu)
    have hend : w + bs.length ≤ p.tls.next.toNat := hhi.trans hbelow
    intro b hb hstorage
    dsimp only at hb ⊢
    rw [Mem.write_outside _ _ _ (.inr (by omega))]
    exact hp b hb hstorage

theorem run_fresh (h : (program objs).Run (FirstFits objs storage) (Program.start ι storage mem) p) :
    Fresh storage p := by
  induction h with
  | refl =>
    intro a hlo hhi
    have hlo : storage.addr.toNat ≤ a := hlo
    unfold Program.start
    dsimp only
    rw [Mem.write_inside _ _ _ hlo (by rw [List.length_replicate]; omega), List.getElem_replicate]
  | step hrun hok hstep ih => exact step_fresh (run_inv start_inv (run_toState hrun)) ih hok hstep

/-- One call more keeps the contract just when what is used first is zero. -/
theorem step_initialised_iff
    (hrun : (program objs).Run (FirstFits objs storage) (Program.start ι storage mem) p)
    (hp : Initialised objs p.uses) (hok : FirstFits objs storage p (.getAddress obj))
    (h : (program objs).step p (.getAddress obj) = some q) :
    Initialised objs q.uses ↔ FirstZero objs storage p (.getAddress obj) := by
  have hstate := run_toState hrun
  rw [(getAddress_step h).2.2, initialised_append]
  by_cases hloc : p.tls.loc obj = 0
  · have hno : ∀ v ∈ p.uses, v.obj ≠ obj := fun v hv heq =>
      ((run_inv start_inv hstate).calls v.toCall (List.mem_map_of_mem hv)).2 (heq ▸ hloc)
    have hzeros := (run_fresh hrun).read_place hloc hok
    rw [getAddress_first hloc]
    dsimp only
    constructor
    · rintro ⟨_, hfirst, _⟩ _
      exact ⟨hok hloc, (hfirst hno).symm.trans hzeros⟩
    · intro hzero
      exact ⟨hp, fun _ => hzeros.trans (hzero hloc).2.symm, fun _ => rfl⟩
  · obtain ⟨v, hv, heq⟩ := List.mem_map.mp (reach_recorded hstate.reach obj hloc)
    have hobj : v.obj = obj := congrArg Call.obj heq
    constructor
    · exact fun _ hzero => absurd hzero hloc
    · exact fun _ => ⟨hp, fun hno => absurd hobj (hno v hv), fun _ => rfl⟩

/-- **Emulated TLS starts with zeros.** In every run of a program whose first uses are of
objects that fit and whose initialiser is all zeros, whatever it writes to its variables in
between, the first call on an object gives it its initialiser and later calls leave it as
it is; and in a run whose first uses fit, a call keeps that contract if and only if it is
no first use, or of an object whose initialiser is all zeros. -/
theorem initialised_iff (objs : ι → EmutlsObject) (storage : Storage) (mem : Mem) :
    (∀ p, (program objs).Run (FirstZero objs storage) (Program.start ι storage mem) p →
      Initialised objs p.uses) ∧
    ∀ p, (program objs).Run (FirstFits objs storage) (Program.start ι storage mem) p →
      Initialised objs p.uses → ∀ obj q, FirstFits objs storage p (.getAddress obj) →
        (program objs).step p (.getAddress obj) = some q →
          (Initialised objs q.uses ↔ FirstZero objs storage p (.getAddress obj)) := by
  constructor
  · intro p hrun
    induction hrun with
    | refl => exact initialised_nil
    | @step p q a hrun hok hstep ih =>
      have hfits : (program objs).Run (FirstFits objs storage) (Program.start ι storage mem) p :=
        Machine.Run.map (f := id) hrun fun _ _ _ hok hstep => .single hok.firstFits hstep
      cases a with
      | getAddress obj => exact (step_initialised_iff hfits ih hok.firstFits hstep).mpr hok
      | write =>
        obtain ⟨_, rfl⟩ := write_step hstep
        exact ih
  · intro p hrun hp obj q hok hstep
    exact step_initialised_iff hrun hp hok hstep

/-- The byte is written before the pointer is used, and is what was written afterwards. -/
theorem initialised_two :
    ∃ p, (program byteAndPointer).Run (FirstZero byteAndPointer storageAt4096)
        (Program.start Bool storageAt4096 fun _ => 0xAA) p ∧
      p.uses.map (fun u => (u.ret, u.after.read u.ret.toNat 1)) = [(4096, [0]), (4104, [0]), (4096, [5])] ∧
      Initialised byteAndPointer p.uses := by
  obtain ⟨p, hrun, huses⟩ :=
    ((program byteAndPointer).restrict (FirstZero byteAndPointer storageAt4096)).exists_reach
      (P := fun p => p.uses.map (fun u => (u.ret, u.after.read u.ret.toNat 1)) =
        [(4096, [0]), (4104, [0]), (4096, [5])])
      (s := Program.start Bool storageAt4096 fun _ => 0xAA)
      [.getAddress false, .write 4096 [5], .getAddress true, .getAddress false] (by decide +kernel)
  have hrun := Machine.run_of_restrict hrun
  exact ⟨p, hrun, huses, (initialised_iff byteAndPointer storageAt4096 fun _ => 0xAA).1 p hrun⟩

/-- An `int` that starts with 7: its template is at 256. -/
private def seven : Unit → EmutlsObject := fun _ => ⟨4, 4, 256, .inr ⟨2, rfl⟩⟩

private def sevenAt256 : Mem := Mem.write (fun _ => 0) 256 [7, 0, 0, 0]

/-- The `int` is zero at its first use. -/
theorem first_not_initialised :
    ∃ p, (program seven).Reach (Program.start Unit storageAt4096 sevenAt256) p ∧
      p.uses.map (fun u => (u.ret, u.after.read u.ret.toNat 4)) = [(4096, [0, 0, 0, 0])] ∧
      ¬ Initialised seven p.uses := by
  obtain ⟨p, hrun, huses, hbytes⟩ := (program seven).exists_reach
    (P := fun p => p.uses.map (fun u => (u.ret, u.after.read u.ret.toNat 4)) = [(4096, [0, 0, 0, 0])] ∧
      ∀ u ∈ p.uses, u.after.read u.ret.toNat 4 ≠ (seven u.obj).initialiser u.before)
    (s := Program.start Unit storageAt4096 sevenAt256) [.getAddress ()] (by decide +kernel)
  refine ⟨p, hrun, huses, fun hinit => ?_⟩
  obtain ⟨u, hu⟩ : ∃ u, p.uses = [u] := List.length_eq_one_iff.mp (by simpa using congrArg List.length huses)
  exact hbytes u (by simp [hu]) (hinit.first 0 u (by rw [hu]; rfl) (by simp))

end MicroRosDemos.Sel4.Emutls
