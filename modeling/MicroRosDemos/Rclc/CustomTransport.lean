import Mathlib.Data.List.Basic

/-!
# The custom transport of the configuration example

`custom_transport_open` makes a socket, looks up the agent's addresses and connects to
the first that takes it. It keeps in `rv` whether that worked, and returns
`rcutils_vsnprintf`, the address of a function, which is always true; and it frees the
result of the lookup after a failed one too. So it reports the truth just when an
address connects (`open_truthful_iff`).
-/

namespace MicroRosDemos.Rclc.CustomTransport

/-- A node of the list that `getaddrinfo` produces, and what `connect` to its address returns. -/
structure Addrinfo where
  addr : Nat
  addrlen : Nat
  connect : Int
deriving DecidableEq

/-- The outcomes of the calls: what `socket` returns; the list that `getaddrinfo` produces,
its address and its nodes, or that it fails; and what the uninitialised `result` holds. -/
structure Outcomes where
  socket : Int
  getaddrinfo : Option (Nat × List Addrinfo)
  result : Nat

/-- `AF_INET`, `SOCK_DGRAM` and `POLLIN`. -/
def afInet : Nat := 2

def sockDgram : Nat := 2

def pollin : BitVec 16 := 1

/-- A call of the C library, with its arguments. -/
inductive Call
  | socket (domain type protocol : Nat)
  | getaddrinfo (node service : String) (family socktype : Nat)
  | connect (fd : Int) (node : Addrinfo)
  | freeaddrinfo (result : Nat)
  | close (fd : Int)
deriving DecidableEq

/-- `custom_transport_data_t`: the `struct pollfd`. -/
structure TransportData where
  fd : Int
  events : BitVec 16
deriving DecidableEq

/-- What a function of the transport returns and leaves, and the calls it has made. -/
structure Done where
  ret : Bool
  data : TransportData
  calls : List Call

/-- The loop over the addresses; what it returns is `rv`. -/
def connectFirst (data : TransportData) : List Addrinfo → Done
  | [] => ⟨false, data, []⟩
  | ptr :: next =>
    if ptr.connect = 0 then ⟨true, { data with events := pollin }, [.connect data.fd ptr]⟩
    else
      let done := connectFirst data next
      { done with calls := .connect data.fd ptr :: done.calls }

/-- `custom_transport_open`. -/
def customTransportOpen (o : Outcomes) (data : TransportData) : Done :=
  let data := { data with fd := o.socket }
  let socket := Call.socket afInet sockDgram 0
  -- return rcutils_vsnprintf: the address of a function is not NULL
  let ret := true
  if o.socket ≠ -1 then
    let lookup := Call.getaddrinfo "localhost" "8888" afInet sockDgram
    match o.getaddrinfo with
    | some (result, nodes) =>
      let done := connectFirst data nodes
      ⟨ret, done.data, [socket, lookup] ++ done.calls ++ [.freeaddrinfo result]⟩
    | none => ⟨ret, data, [socket, lookup, .freeaddrinfo o.result]⟩
  else ⟨ret, data, [socket]⟩

/-- `custom_transport_close`; `closed` is what `close` returns. -/
def customTransportClose (data : TransportData) (closed : Int) : Done :=
  if data.fd = -1 then ⟨true, data, []⟩ else ⟨closed = 0, data, [.close data.fd]⟩

/-! ## What the transport should say -/

/-- The address that a call tries to connect to. -/
def Call.tried : Call → Option Addrinfo
  | .connect _ node => some node
  | _ => none

/-- The addresses that were tried, in order. -/
def Done.tried (d : Done) : List Addrinfo := d.calls.filterMap Call.tried

/-- The nodes of the list, if there is one. -/
def Outcomes.nodes (o : Outcomes) : List Addrinfo :=
  match o.getaddrinfo with
  | some (_, nodes) => nodes
  | none => []

/-- The truth about an opening: it says that it worked just when there is a socket and an
address connected on it; the first address that connects is the last that is tried, with
the events set; and what is freed is a list that the lookup produced. -/
structure Truthful (o : Outcomes) (d : Done) : Prop where
  ret : d.ret = true ↔ o.socket ≠ -1 ∧ ∃ node, .connect o.socket node ∈ d.calls ∧ node.connect = 0
  stops : ∀ node ∈ d.tried, node.connect = 0 → d.data.events = pollin ∧
    ∃ failed rest, o.nodes = failed ++ node :: rest ∧ d.tried = failed ++ [node] ∧
      ∀ n ∈ failed, n.connect ≠ 0
  frees : ∀ result, .freeaddrinfo result ∈ d.calls → ∃ nodes, o.getaddrinfo = some (result, nodes)

/-! ## The loop -/

variable {data : TransportData} {o : Outcomes} {nodes failed rest : List Addrinfo} {node : Addrinfo}

/-- No address connects: all are tried. -/
theorem connectFirst_of_none (h : ∀ n ∈ nodes, n.connect ≠ 0) :
    connectFirst data nodes = ⟨false, data, nodes.map (.connect data.fd)⟩ := by
  induction nodes with
  | nil => rfl
  | cons ptr next ih =>
    rw [connectFirst, if_neg (h ptr List.mem_cons_self), ih fun n hn => h n (List.mem_cons_of_mem _ hn)]
    rfl

/-- The loop stops at the first address that connects. -/
theorem connectFirst_of_first (hfailed : ∀ n ∈ failed, n.connect ≠ 0) (hnode : node.connect = 0) :
    connectFirst data (failed ++ node :: rest) =
      ⟨true, { data with events := pollin }, (failed ++ [node]).map (.connect data.fd)⟩ := by
  induction failed with
  | nil => exact if_pos hnode
  | cons ptr next ih =>
    rw [List.cons_append, connectFirst, if_neg (hfailed ptr List.mem_cons_self),
      ih fun n hn => hfailed n (List.mem_cons_of_mem _ hn)]
    rfl

/-- A list with an address that connects has a first one. -/
theorem exists_first (h : ∃ n ∈ nodes, n.connect = 0) :
    ∃ failed node rest, nodes = failed ++ node :: rest ∧ node.connect = 0 ∧
      ∀ n ∈ failed, n.connect ≠ 0 := by
  induction nodes with
  | nil =>
    obtain ⟨n, hn, _⟩ := h
    cases hn
  | cons ptr next ih =>
    by_cases hptr : ptr.connect = 0
    · exact ⟨[], ptr, next, rfl, hptr, fun n hn => by cases hn⟩
    · obtain ⟨n, hn, hconnect⟩ := h
      have hnext : n ∈ next := by
        rcases List.mem_cons.mp hn with rfl | hnext
        · exact absurd hconnect hptr
        · exact hnext
      obtain ⟨failed, node, rest, hsplit, hnode, hfailed⟩ := ih ⟨n, hnext, hconnect⟩
      refine ⟨ptr :: failed, node, rest, by rw [hsplit, List.cons_append], hnode, fun m hm => ?_⟩
      rcases List.mem_cons.mp hm with rfl | hm
      · exact hptr
      · exact hfailed m hm

theorem tried_map (fd : Int) (nodes : List Addrinfo) :
    (nodes.map (Call.connect fd)).filterMap Call.tried = nodes := by
  rw [List.filterMap_map]
  exact List.filterMap_some

/-! ## The opening -/

/-- It always says that it worked. -/
theorem open_ret (o : Outcomes) (data : TransportData) : (customTransportOpen o data).ret = true := by
  unfold customTransportOpen
  dsimp only
  split
  · split <;> rfl
  · rfl

/-- What it does when an address connects. -/
theorem open_of_first {result : Nat} (hsocket : o.socket ≠ -1)
    (hlookup : o.getaddrinfo = some (result, failed ++ node :: rest)) (hnode : node.connect = 0)
    (hfailed : ∀ n ∈ failed, n.connect ≠ 0) :
    customTransportOpen o data = ⟨true, ⟨o.socket, pollin⟩,
      [.socket afInet sockDgram 0, .getaddrinfo "localhost" "8888" afInet sockDgram] ++
        (failed ++ [node]).map (.connect o.socket) ++ [.freeaddrinfo result]⟩ := by
  unfold customTransportOpen
  dsimp only
  rw [if_pos hsocket, hlookup]
  dsimp only
  rw [connectFirst_of_first hfailed hnode]

theorem truthful_of_first {result : Nat} (hsocket : o.socket ≠ -1)
    (hlookup : o.getaddrinfo = some (result, failed ++ node :: rest)) (hnode : node.connect = 0)
    (hfailed : ∀ n ∈ failed, n.connect ≠ 0) : Truthful o (customTransportOpen o data) := by
  have hnodes : o.nodes = failed ++ node :: rest := by
    unfold Outcomes.nodes
    rw [hlookup]
  have htried : (customTransportOpen o data).tried = failed ++ [node] := by
    unfold Done.tried
    rw [open_of_first hsocket hlookup hnode hfailed, List.filterMap_append, List.filterMap_append, tried_map]
    exact List.append_nil _
  refine ⟨?_, fun n hn hconnect => ?_, fun p hp => ?_⟩
  · refine ⟨fun _ => ⟨hsocket, node, ?_, hnode⟩, fun _ => open_ret o data⟩
    rw [open_of_first hsocket hlookup hnode hfailed]
    exact List.mem_append_left _ (List.mem_append_right _ (List.mem_map_of_mem (by simp)))
  · rw [htried] at hn ⊢
    have hlast : n = node := by
      rcases List.mem_append.mp hn with hn | hn
      · exact absurd hconnect (hfailed n hn)
      · exact List.mem_singleton.mp hn
    rw [hlast, open_of_first hsocket hlookup hnode hfailed]
    exact ⟨rfl, failed, rest, hnodes, rfl, hfailed⟩
  · rw [open_of_first hsocket hlookup hnode hfailed] at hp
    have hresult : p = result := by
      rcases List.mem_append.mp hp with hp | hp
      · rcases List.mem_append.mp hp with hp | hp
        · simp at hp
        · obtain ⟨n, _, hno⟩ := List.mem_map.mp hp
          cases hno
      · simpa using hp
    exact ⟨_, hresult ▸ hlookup⟩

/-- A connection that an opening reports was tried, in the list that was looked up. -/
theorem connected_of_mem (h : .connect o.socket node ∈ (customTransportOpen o data).calls) :
    ∃ result nodes, o.getaddrinfo = some (result, nodes) ∧ node ∈ nodes := by
  unfold customTransportOpen at h
  dsimp only at h
  split at h
  · split at h
    · next result nodes hlookup =>
      refine ⟨result, nodes, hlookup, ?_⟩
      by_cases hsome : ∃ n ∈ nodes, n.connect = 0
      · obtain ⟨failed, first, rest, rfl, hfirst, hfailed⟩ := exists_first hsome
        rw [connectFirst_of_first hfailed hfirst] at h
        simp only [List.mem_append, List.mem_cons, List.mem_map, List.not_mem_nil, reduceCtorEq,
          Call.connect.injEq, true_and, or_false, false_or, exists_eq_right] at h ⊢
        rcases h with h | h
        · exact .inl h
        · exact .inr (.inl h)
      · rw [connectFirst_of_none fun n hn hzero => hsome ⟨n, hn, hzero⟩] at h
        simpa using h
    · simp at h
  · simp at h

/-- **An opening reports the truth just when an address connects.** For every outcome of
the calls: the transport says that it worked exactly when it did, stops at the first
address that connects and frees only what the lookup produced, if and only if there is a
socket, the lookup succeeds and one of its addresses connects. -/
theorem open_truthful_iff (o : Outcomes) (data : TransportData) :
    Truthful o (customTransportOpen o data) ↔
      o.socket ≠ -1 ∧ ∃ result nodes, o.getaddrinfo = some (result, nodes) ∧
        ∃ node ∈ nodes, node.connect = 0 := by
  constructor
  · intro h
    obtain ⟨hsocket, node, hcall, hconnect⟩ := h.ret.mp (open_ret o data)
    obtain ⟨result, nodes, hlookup, hnode⟩ := connected_of_mem hcall
    exact ⟨hsocket, result, nodes, hlookup, node, hnode, hconnect⟩
  · rintro ⟨hsocket, result, nodes, hlookup, hsome⟩
    obtain ⟨failed, node, rest, rfl, hnode, hfailed⟩ := exists_first hsome
    exact truthful_of_first hsocket hlookup hnode hfailed

/-- The name cannot be looked up: the transport says that it is open, and frees a pointer
that nobody set. -/
theorem open_lies :
    (customTransportOpen ⟨3, none, 0xDEAD⟩ ⟨0, 0⟩).ret = true ∧
      (customTransportOpen ⟨3, none, 0xDEAD⟩ ⟨0, 0⟩).tried = [] ∧
      .freeaddrinfo 0xDEAD ∈ (customTransportOpen ⟨3, none, 0xDEAD⟩ ⟨0, 0⟩).calls ∧
      ¬ Truthful ⟨3, none, 0xDEAD⟩ (customTransportOpen ⟨3, none, 0xDEAD⟩ ⟨0, 0⟩) := by
  have hfree : .freeaddrinfo 0xDEAD ∈ (customTransportOpen ⟨3, none, 0xDEAD⟩ ⟨0, 0⟩).calls := by decide
  refine ⟨rfl, rfl, hfree, fun h => ?_⟩
  obtain ⟨nodes, hnone⟩ := h.frees _ hfree
  cases hnone

/-! ## Closing -/

/-- The loop keeps the socket, and makes no call but `connect` on it. -/
theorem connectFirst_fd (data : TransportData) (nodes : List Addrinfo) :
    (connectFirst data nodes).data.fd = data.fd ∧
      ∀ c ∈ (connectFirst data nodes).calls, ∃ node, c = .connect data.fd node := by
  induction nodes with
  | nil => exact ⟨rfl, fun c hc => absurd hc List.not_mem_nil⟩
  | cons ptr next ih =>
    unfold connectFirst
    split
    · exact ⟨rfl, fun c hc => ⟨ptr, List.mem_singleton.mp hc⟩⟩
    · refine ⟨ih.1, fun c hc => ?_⟩
      rcases List.mem_cons.mp hc with rfl | hc
      · exact ⟨ptr, rfl⟩
      · exact ih.2 c hc

/-- What was opened has the socket. -/
theorem open_fd (o : Outcomes) (data : TransportData) : (customTransportOpen o data).data.fd = o.socket := by
  unfold customTransportOpen
  dsimp only
  split
  · split
    · exact (connectFirst_fd _ _).1
    · rfl
  · rfl

end MicroRosDemos.Rclc.CustomTransport
