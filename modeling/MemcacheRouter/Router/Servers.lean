import Mathlib.Data.List.Chain
import MemcacheRouter.Foundations.Transition
import MemcacheRouter.Wire.Message

/-!
# The server list

A SERVER_LIST packet reaches `SetMemcacheServers`, which compares it with the list in use and, when
they differ, replaces it and restarts the workers; each new worker installs the list in its own
`MemClient`. Two comparisons and one index decide whether the workers end up with the servers the
packet names.

The comparison runs over the length of the list in use. It is exact unless one of the two lists is
a proper prefix of the other: a longer new list is then taken for the old one, and a shorter one is
read past its end. The pool is built from the first server only, once for every server of the list,
and of its port only the lower 16 bits arrive.
-/

open Transition

namespace MemcacheRouter

/-! ## Comparing lists -/

/-- The loop of `IsServerListMatching`, over the list in use and the one of the packet. -/
def serversMatch : List Server → List Server → Except Fault Bool
  | [], _ => .ok true
  | _ :: _, [] => .error .outOfRange
  | a :: as, b :: bs =>
    if a.hostname ≠ b.hostname then .ok false
    else if a.port ≠ b.port then .ok false
    else serversMatch as bs

/-- `MemcacheRouter::IsServerListMatching`. -/
def isServerListMatching (serverList : Option Packet) (p : Packet) : Except Fault Bool :=
  match serverList with
  | none => .ok false
  | some q => serversMatch q.instruction.servers p.instruction.servers

/-- The effect of `MemcacheRouter::SetMemcacheServers` on `server_list_`. -/
def setMemcacheServers (serverList : Option Packet) (p : Packet) :
    Except Fault (Option Packet) :=
  match p.getType with
  | .ok .serverList =>
    match isServerListMatching serverList p with
    | .ok true => .ok serverList
    | .ok false => .ok (some p)
    | .error e => .error e
  | .ok _ => .error .checkFailed
  | .error e => .error e

/-- The step relation of a sequence of SERVER_LIST packets. -/
def SetServersStep (serverList : Option Packet) (p : Packet) (serverList' : Option Packet) :
    Prop :=
  setMemcacheServers serverList p = .ok serverList'

/-- One list is a proper prefix of the other. -/
def ProperPrefix (A B : List Server) : Prop := A ≠ B ∧ (A <+: B ∨ B <+: A)

/-- What the comparison answers, in all cases. -/
theorem serversMatch_eq (A B : List Server) : serversMatch A B =
    if A <+: B then .ok true else if B <+: A then .error .outOfRange else .ok false := by
  induction A generalizing B with
  | nil => rw [serversMatch, if_pos List.nil_prefix]
  | cons a as ih =>
    cases B with
    | nil => rw [serversMatch, if_neg (by simp), if_pos List.nil_prefix]
    | cons b bs =>
      rw [serversMatch]
      by_cases hab : a = b
      · subst hab
        rw [if_neg (by simp), if_neg (by simp), ih bs]
        simp only [List.cons_prefix_cons, true_and]
      · have hne : a.hostname ≠ b.hostname ∨ a.port ≠ b.port := by
          by_contra h
          push Not at h
          exact hab (by cases a; cases b; simp_all)
        have hfalse : (if a.hostname ≠ b.hostname then .ok false
            else if a.port ≠ b.port then .ok false else serversMatch as bs)
            = (.ok false : Except Fault Bool) := by
          rcases hne with hh | hp
          · rw [if_pos hh]
          · rw [if_pos hp, ite_self]
        have hab' : ¬(a :: as <+: b :: bs) := by simp [hab]
        have hba' : ¬(b :: bs <+: a :: as) := by simp [Ne.symm hab]
        rw [hfalse, if_neg hab', if_neg hba']

/-- **The comparison is exact away from proper prefixes.** -/
theorem serversMatch_exact_iff {A B : List Server} :
    serversMatch A B = .ok (decide (A = B)) ↔ ¬ProperPrefix A B := by
  rw [serversMatch_eq]
  by_cases hAB : A <+: B
  · rw [if_pos hAB]
    by_cases heq : A = B <;> simp [ProperPrefix, heq, hAB]
  · have hne : A ≠ B := by
      rintro rfl
      exact hAB (List.prefix_refl A)
    rw [if_neg hAB]
    by_cases hBA : B <+: A <;> simp [ProperPrefix, hne, hAB, hBA]

/-- One packet is handled as it should be unless its list and the one in use are proper prefixes of
one another. -/
theorem setMemcacheServers_iff {serverList : Option Packet} {p : Packet}
    (hp : p.getType = .ok .serverList) :
    (∃ s, SetServersStep serverList p s ∧
        s.map (·.instruction.servers) = some p.instruction.servers) ↔
      ∀ q ∈ serverList, ¬ProperPrefix q.instruction.servers p.instruction.servers := by
  simp only [SetServersStep, setMemcacheServers, hp]
  cases serverList with
  | none => simp [isServerListMatching]
  | some q =>
    simp only [isServerListMatching, Option.mem_def, Option.some.injEq, forall_eq']
    rw [serversMatch_eq, ProperPrefix]
    by_cases hqp : q.instruction.servers <+: p.instruction.servers
    · simp [hqp]
    · have hne : q.instruction.servers ≠ p.instruction.servers := by
        intro heq
        exact hqp (heq ▸ List.prefix_refl _)
      by_cases hpq : p.instruction.servers <+: q.instruction.servers <;> simp [hqp, hpq, hne]

theorem functional_setServersStep : Functional SetServersStep := by
  intro s p s₁ s₂ h₁ h₂
  exact Except.ok.inj (h₁.symm.trans h₂)

/-- After the packets `ps` the list in use is the one of the last of them. -/
def ServersOfLast (ps : List Packet) (serverList : Option Packet) : Prop :=
  serverList.map (·.instruction.servers) = ps.getLast?.map (·.instruction.servers)

private theorem serversOfLast_iff_isChain {ps : List Packet}
    (hps : ∀ p ∈ ps, p.getType = .ok .serverList) :
    (∀ ps', ps' <+: ps → ∃ s, Run SetServersStep none ps' s ∧ ServersOfLast ps' s) ↔
      ps.IsChain fun p q ↦ ¬ProperPrefix p.instruction.servers q.instruction.servers := by
  induction ps using List.reverseRecOn with
  | nil =>
    simp only [List.prefix_nil, forall_eq, List.isChain_nil, iff_true]
    exact ⟨none, Run.nil _, rfl⟩
  | append_singleton ps p ih =>
    have ih := ih fun q hq ↦ hps q (List.mem_append_left _ hq)
    have hp := hps p (by simp)
    -- the condition on the last pair is the one on the list in use before the last packet
    have hlast : ∀ {s}, ServersOfLast ps s →
        ((∀ q ∈ s, ¬ProperPrefix q.instruction.servers p.instruction.servers) ↔
          ∀ q ∈ ps.getLast?, ¬ProperPrefix q.instruction.servers p.instruction.servers) := by
      intro s hs
      rw [ServersOfLast] at hs
      cases s <;> cases hl : ps.getLast? <;> rw [hl] at hs <;> simp_all
    rw [List.isChain_append, ← ih]
    simp only [List.head?_cons, Option.mem_def, Option.some.injEq, forall_eq',
      List.isChain_singleton, true_and]
    constructor
    · intro h
      refine ⟨fun ps' hpre ↦ h ps' (hpre.trans ⟨[p], rfl⟩), ?_⟩
      obtain ⟨s, hrun, hs⟩ := h ps ⟨[p], rfl⟩
      obtain ⟨s', hrun', hs'⟩ := h (ps ++ [p]) (List.prefix_refl _)
      obtain ⟨s₀, hrun₀, hstep⟩ := hrun'.of_concat
      obtain rfl := hrun₀.eq_of_functional functional_setServersStep hrun
      rw [ServersOfLast, List.getLast?_concat] at hs'
      exact (hlast hs).mp ((setMemcacheServers_iff hp).mp ⟨s', hstep, hs'⟩)
    · rintro ⟨h, hpair⟩ ps' hpre
      rcases List.prefix_concat_iff.mp hpre with rfl | hpre
      · obtain ⟨s, hrun, hs⟩ := h ps (List.prefix_refl _)
        obtain ⟨s', hstep, hs'⟩ := (setMemcacheServers_iff hp).mpr ((hlast hs).mpr hpair)
        refine ⟨s', hrun.snoc hstep, ?_⟩
        rw [ServersOfLast, List.getLast?_concat]
        exact hs'
      · exact h ps' hpre

/-- **Change detection is exact away from proper prefixes.** One comparison reads nothing past the
packet's list and answers correctly if and only if neither list is a proper prefix of the other;
and a sequence of SERVER_LIST packets leaves, after each of them, the servers of the last one if
and only if no two packets in a row carry lists of which one is a proper prefix of the other. -/
theorem serverList_exact_iff (ps : List Packet) (hps : ∀ p ∈ ps, p.getType = .ok .serverList) :
    (∀ (serverList : Option Packet) (p : Packet),
      isServerListMatching serverList p = .ok (decide
          (serverList.map (·.instruction.servers) = some p.instruction.servers)) ↔
        ∀ q ∈ serverList, ¬ProperPrefix q.instruction.servers p.instruction.servers) ∧
    ((∀ ps', ps' <+: ps → ∃ s, Run SetServersStep none ps' s ∧ ServersOfLast ps' s) ↔
      ps.IsChain fun p q ↦ ¬ProperPrefix p.instruction.servers q.instruction.servers) := by
  refine ⟨?_, serversOfLast_iff_isChain hps⟩
  intro serverList p
  cases serverList with
  | none => simp [isServerListMatching]
  | some q =>
    simp only [isServerListMatching, Option.map_some, Option.some.injEq, Option.mem_def,
      forall_eq']
    exact serversMatch_exact_iff

/-- A packet that carries the given servers. -/
def serverListPacket (servers : List Server) : Packet := { instruction := { servers := servers } }

theorem serverList_exact_replaced :
    ∃ s, Run SetServersStep none [serverListPacket [⟨[97], 1⟩], serverListPacket [⟨[98], 1⟩]] s ∧
      ServersOfLast [serverListPacket [⟨[97], 1⟩], serverListPacket [⟨[98], 1⟩]] s := by
  refine (serverList_exact_iff _ ?_).2.mpr ?_ _ (List.prefix_refl _)
  · decide
  · simp [serverListPacket, ProperPrefix]

/-- The comparison is not exact: a list that extends the one in use is taken for it and dropped,
and one that is shorter is read past its end. -/
theorem serverList_not_exact :
    isServerListMatching (some (serverListPacket [⟨[97], 1⟩]))
        (serverListPacket [⟨[97], 1⟩, ⟨[98], 1⟩]) = .ok true ∧
      isServerListMatching (some (serverListPacket [⟨[97], 1⟩, ⟨[98], 1⟩]))
        (serverListPacket [⟨[97], 1⟩]) = .error .outOfRange ∧
      ∃ s, Run SetServersStep none
          [serverListPacket [⟨[97], 1⟩], serverListPacket [⟨[97], 1⟩, ⟨[98], 1⟩]] s ∧
        s.map (·.instruction.servers) = some [⟨[97], 1⟩] :=
  ⟨rfl, rfl, _, Run.cons rfl (Run.single rfl), rfl⟩

/-! ## Installing the pool -/

/-- The argument of `memcached_server_list_append` that a `port()` is converted to: an
`in_port_t`. -/
def inPort (port : Int32) : UInt16 := port.toUInt32.toUInt16

/-- **Only a port of 16 bits arrives as it is.** -/
theorem toNat_inPort_eq_iff (port : Int32) :
    ((inPort port).toNat : ℤ) = port.toInt ↔ 0 ≤ port.toInt ∧ port.toInt < 2 ^ 16 := by
  have hnat : (inPort port).toNat = port.toBitVec.toNat % 2 ^ 16 := rfl
  have hint : port.toInt = if 2 * port.toBitVec.toNat < 2 ^ 32 then (port.toBitVec.toNat : ℤ)
      else port.toBitVec.toNat - (2 ^ 32 : ℕ) := BitVec.toInt_eq_toNat_cond _
  have hlt : port.toBitVec.toNat < 2 ^ 32 := port.toBitVec.isLt
  rw [hnat, hint]
  split_ifs <;> omega

/-- What `memcached_server_list_append` does with the list, hostname and port it is given. -/
def serverListAppend (l : List (Bytes × UInt16)) (hostname : Bytes) (port : UInt16) :
    List (Bytes × UInt16) := l ++ [(hostname, port)]

/-- A `MemClient`: the list it built, and the pool that `memcached_server_push` installed. -/
structure MemClient where
  servers : List (Bytes × UInt16)
  pool : List (Bytes × UInt16)
  deriving DecidableEq, Repr

/-- `MemClient::Init`. The loop over the remaining indices reads `servers(0)` each time. -/
def MemClient.init (instruction : Instruction) : Except Fault MemClient :=
  match instruction.servers with
  | [] => .error .checkFailed
  | s :: rest =>
    let l := rest.foldl (fun l _ ↦ serverListAppend l (cStr s.hostname) (inPort s.port))
      (serverListAppend [] (cStr s.hostname) (inPort s.port))
    .ok { servers := l, pool := l }

/-- `MemcacheRouter::InitThreads`, as far as the clients of the new workers are concerned. -/
def initThreads (numThreads : ℕ) (instruction : Instruction) : Except Fault (List MemClient) :=
  (List.range numThreads).mapM fun _ ↦ MemClient.init instruction

/-- The servers that a client talks to, with their ports as numbers. -/
def MemClient.hosts (c : MemClient) : List (Bytes × ℤ) := c.pool.map fun x ↦ (x.1, (x.2.toNat : ℤ))

/-- The servers that an instruction asks for. -/
def Instruction.hosts (instruction : Instruction) : List (Bytes × ℤ) :=
  instruction.servers.map fun s ↦ (s.hostname, s.port.toInt)

/-- The loop invariant: after as many turns as there are elements, that many copies. -/
private theorem foldl_serverListAppend (h : Bytes) (p : UInt16) (rest : List Server) :
    ∀ l, rest.foldl (fun l _ ↦ serverListAppend l h p) l
      = l ++ List.replicate rest.length (h, p) := by
  induction rest with
  | nil => simp
  | cons s rest ih =>
    intro l
    rw [List.foldl_cons, ih, serverListAppend, List.append_assoc]
    rfl

/-- Every client gets as many copies of the first server as the list has servers. -/
theorem MemClient.init_eq {instruction : Instruction} {s : Server} {rest : List Server}
    (h : instruction.servers = s :: rest) : MemClient.init instruction =
      .ok ⟨List.replicate (rest.length + 1) (cStr s.hostname, inPort s.port),
        List.replicate (rest.length + 1) (cStr s.hostname, inPort s.port)⟩ := by
  rw [MemClient.init, h]
  simp only [foldl_serverListAppend]
  rfl

private theorem hosts_replicate_eq_iff {s : Server} {rest : List Server} :
    MemClient.hosts ⟨List.replicate (rest.length + 1) (cStr s.hostname, inPort s.port),
        List.replicate (rest.length + 1) (cStr s.hostname, inPort s.port)⟩
        = (s :: rest).map (fun s ↦ (s.hostname, s.port.toInt)) ↔
      ∀ t ∈ s :: rest, t = s ∧ 0 ∉ t.hostname ∧ 0 ≤ t.port.toInt ∧ t.port.toInt < 2 ^ 16 := by
  rw [MemClient.hosts, List.map_replicate, eq_comm, List.eq_replicate_iff]
  simp only [List.length_map, List.length_cons, true_and, List.forall_mem_map, Prod.mk.injEq]
  constructor
  · intro h t ht
    obtain ⟨hs, hsport⟩ := h s List.mem_cons_self
    obtain ⟨hhost, hport⟩ := h t ht
    have hts : t = s := by
      obtain ⟨hostname, port⟩ := t
      obtain ⟨hostname', port'⟩ := s
      rw [Server.mk.injEq]
      exact ⟨hhost.trans hs.symm, Int32.toInt_inj.mp (hport.trans hsport.symm)⟩
    subst hts
    exact ⟨rfl, cStr_eq_self_iff.mp hs.symm, (toNat_inPort_eq_iff _).mp hsport.symm⟩
  · intro h t ht
    obtain ⟨rfl, hnul, hport⟩ := h t ht
    exact ⟨(cStr_eq_self_iff.mpr hnul).symm, ((toNat_inPort_eq_iff _).mpr hport).symm⟩

private theorem mapM_const_ok {α : Type} (n : ℕ) (a : α) :
    (List.range n).mapM (fun _ ↦ (Except.ok a : Except Fault α)) = .ok (List.replicate n a) := by
  have h : ∀ l : List ℕ, l.mapM (fun _ ↦ (Except.ok a : Except Fault α))
      = .ok (List.replicate l.length a) := by
    intro l
    induction l with
    | nil => rfl
    | cons x l ih =>
      rw [List.mapM_cons, ih]
      rfl
  rw [h, List.length_range]

/-- **The pool is the one asked for exactly when it has one server to repeat.** With at least one
worker, every worker ends up with the servers of the instruction, in order, if and only if they are
all equal to the first one, its name survives as a C string, and its port as a number of 16 bits. -/
theorem initThreads_pool_iff (numThreads : ℕ) (hthreads : 0 < numThreads)
    (instruction : Instruction) (hservers : instruction.servers ≠ []) :
    (∃ clients, initThreads numThreads instruction = .ok clients ∧
        clients.length = numThreads ∧ ∀ c ∈ clients, c.hosts = instruction.hosts) ↔
      ∀ s ∈ instruction.servers, s = instruction.servers.head hservers ∧ 0 ∉ s.hostname ∧
        0 ≤ s.port.toInt ∧ s.port.toInt < 2 ^ 16 := by
  obtain ⟨s, rest, hlist⟩ := List.exists_cons_of_ne_nil hservers
  rw [initThreads, MemClient.init_eq hlist, mapM_const_ok, Instruction.hosts]
  simp only [hlist, List.head_cons, Except.ok.injEq, exists_eq_left', List.length_replicate,
    true_and, List.mem_replicate, and_imp, forall_eq_apply_imp_iff]
  rw [← hosts_replicate_eq_iff]
  exact ⟨fun h ↦ h hthreads.ne', fun h _ ↦ h⟩

/-- A server is named three times, and four workers talk to it. -/
theorem initThreads_pool_thrice : ∃ clients,
    initThreads 4 { servers := List.replicate 3 ⟨[97], 11211⟩ } = .ok clients ∧
      clients.length = 4 ∧ ∀ c ∈ clients, c.hosts = List.replicate 3 ([97], 11211) :=
  (initThreads_pool_iff 4 (by decide) { servers := List.replicate 3 ⟨[97], 11211⟩ }
    (by decide)).mpr (by decide)

/-- With two different servers every worker talks to the first one only. -/
theorem initThreads_pool_first_only :
    initThreads 2 { servers := [⟨[97], 11211⟩, ⟨[98], 11211⟩] } =
        .ok [⟨[([97], 11211), ([97], 11211)], [([97], 11211), ([97], 11211)]⟩,
          ⟨[([97], 11211), ([97], 11211)], [([97], 11211), ([97], 11211)]⟩] ∧
      Instruction.hosts { servers := [⟨[97], 11211⟩, ⟨[98], 11211⟩] }
        = [([97], 11211), ([98], 11211)] := by
  decide

end MemcacheRouter
