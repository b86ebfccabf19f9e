import Aegis.Lib.Run
import Aegis.Lock.Redis

/-!
# Leader election

`LeaderElection` (internal/lock/leader.go) for any number of nodes that campaign for one resource.
A node takes its mutex, sends one command to Redis, and stores its flag when it has the reply; what
the others do, and time, may come in between, and a command may fail with or without its effect.

The flag is a copy of the lease, and it goes stale in two ways: nothing clears it when the lease
runs out before the next heartbeat, and `Resign` gives up the lease before it clears the flag. There
is one leader at most as long as no lease runs out under a node that has its flag set or is about
to, and nobody acquires the lease before a node that gives it up has cleared its flag. A lease must
not be shorter than a millisecond either: its refresh would delete the key.
-/

namespace Aegis.Lock

/-! ## One node -/

/-- The part of `LeaderConfig` that the election reads; the duration is in nanoseconds. -/
structure LeaderConfig where
  resource : List Char
  leaseDuration : Int

/-- `LeaderElection`. -/
structure Election where
  resource : List Char
  leaseDuration : Nat
  isLeader : Bool
  activeTok : Option RedisToken

/-- The resource of a configuration that names none. -/
def defaultResource : List Char :=
  ['a', 'e', 'g', 'i', 's', ':', 'g', 'c', ':', 'l', 'e', 'a', 'd', 'e', 'r']

/-- `NewLeaderElection`. -/
def newLeaderElection (cfg : LeaderConfig) : Election where
  resource := if cfg.resource = [] then defaultResource else cfg.resource
  leaseDuration := if cfg.leaseDuration ≤ 0 then 15 * 10 ^ 9 else cfg.leaseDuration.toNat
  isLeader := false
  activeTok := none

namespace Election

/-- The token by which the node is leader. -/
def claim (l : Election) : Option RedisToken := if l.isLeader then l.activeTok else none

/-- `step`, with the id that an `Acquire` would generate. -/
def step (l : Election) (tokenId : List Char) : Locking Election :=
  match l.claim with
  | some tok => do
    match ← refresh tok l.leaseDuration with
    | .error _ => return { l with isLeader := false, activeTok := none }
    | .ok () => return l
  | none => do
    match ← acquire tokenId l.resource l.leaseDuration with
    | .ok tok => return { l with isLeader := true, activeTok := some tok }
    | .error _ => return { l with isLeader := false }

/-- `Resign`. -/
def resign (l : Election) : Locking (Except LockError Unit × Election) :=
  match l.claim with
  | some tok => do
    let err ← release tok
    return (err, { l with isLeader := false, activeTok := none })
  | none => return (.ok (), l)

end Election

/-! ## The cluster -/

/-- A node, with the call that holds its mutex. -/
structure Node where
  election : Election
  running : Option (Locking Election)

namespace Node

/-- `IsLeader`. -/
def isLeader (n : Node) : Bool := n.election.isLeader

/-- The call has its reply and is about to store the flag. -/
def returned (n : Node) : Option Election :=
  match n.running with
  | some (.ret l) => some l
  | _ => none

/-- The token by which the node is leader, or is about to be. -/
def claim (n : Node) : Option RedisToken :=
  (n.returned.bind Election.claim).or n.election.claim

/-- The flag is set, and about to be cleared. -/
def leaving (n : Node) : Bool := n.election.claim.isSome && n.returned.any fun l => l.claim.isNone

/-- The next command is the `SET NX` of an `Acquire`. -/
def acquiring (n : Node) : Bool :=
  match n.running with
  | some (.call (.setNX _ _ _) _) => true
  | _ => false

end Node

/-- Redis, its clock, and the nodes. -/
structure Cluster where
  redis : Redis
  now : Nat
  nodes : List Node

/-- Time passes; a node begins a `step` or a `Resign`; Redis runs the command a node has sent, or
the call fails, with or without its effect; a call stores its result and returns. -/
inductive Act
  | tick (ms : Nat)
  | step (i : Nat) (tokenId : List Char)
  | resign (i : Nat)
  | exec (i : Nat) (fault : Option (Bool × String))
  | finish (i : Nat)

namespace Cluster

/-- The nodes at the start. Redis may hold anything. -/
def init (redis : Redis) (now : Nat) (cfgs : List LeaderConfig) : Cluster :=
  ⟨redis, now, cfgs.map fun cfg => ⟨newLeaderElection cfg, none⟩⟩

def put (x : Cluster) (i : Nat) (n : Node) : Cluster := { x with nodes := x.nodes.set i n }

/-- A call begins, if the mutex is free. -/
def begin (x : Cluster) (i : Nat) (p : Election → Locking Election) : Option Cluster :=
  match x.nodes[i]? with
  | some n =>
    if n.running.isSome then none else some (x.put i { n with running := some (p n.election) })
  | none => none

/-- The command of a call is run, or fails. -/
def exec (x : Cluster) (i : Nat) (fault : Option (Bool × String)) : Option Cluster :=
  match x.nodes[i]? with
  | none => none
  | some n =>
    match n.running with
    | some (.call c next) =>
      let (reply, redis) := Redis.exec x.now c x.redis
      match fault with
      | none => some ({ x with redis := redis }.put i { n with running := some (next reply) })
      | some (applied, err) =>
        some ({ x with redis := if applied then redis else x.redis }.put i
          { n with running := some (next (c.failed err)) })
    | _ => none

/-- A call stores its result. -/
def finish (x : Cluster) (i : Nat) : Option Cluster :=
  match x.nodes[i]? with
  | none => none
  | some n => n.returned.map fun l => x.put i ⟨l, none⟩

/-- One action, if it is possible. -/
def step (x : Cluster) : Act → Option Cluster
  | .tick ms => some { x with now := x.now + ms }
  | .step i tokenId => x.begin i fun l => l.step tokenId
  | .resign i => x.begin i fun l => l.resign.bind fun r => .ret r.2
  | .exec i fault => x.exec i fault
  | .finish i => x.finish i

/-- No lease runs out under a node that is leader or about to be; and no `Acquire` is run while a
node is about to clear its flag. -/
def Timely (x : Cluster) : Act → Prop
  | .tick ms => ∀ n ∈ x.nodes, n.leaving = false → ∀ tok ∈ n.claim, ∀ e,
      x.redis.lookup (lockKey tok.resource) = some e → e.value = tok.id → x.now + ms ≤ e.deadline
  | .exec i none => ∀ n ∈ x.nodes[i]?, n.acquiring = true → ∀ n' ∈ x.nodes, n'.leaving = false
  | _ => True

instance (x : Cluster) : ∀ a, Decidable (Timely x a)
  | .tick ms => inferInstanceAs (Decidable (∀ n ∈ x.nodes, n.leaving = false → ∀ tok ∈ n.claim,
      ∀ e ∈ x.redis.lookup (lockKey tok.resource), e.value = tok.id → x.now + ms ≤ e.deadline))
  | .exec i none => inferInstanceAs (Decidable (∀ n ∈ x.nodes[i]?, n.acquiring = true →
      ∀ n' ∈ x.nodes, n'.leaving = false))
  | .exec _ (some _) => .isTrue trivial
  | .step _ _ => .isTrue trivial
  | .resign _ => .isTrue trivial
  | .finish _ => .isTrue trivial

/-- At most one node is leader. -/
def OneLeader (x : Cluster) : Prop :=
  ∀ (i j : Nat) (n n' : Node), x.nodes[i]? = some n → x.nodes[j]? = some n' →
    n.isLeader = true → n'.isLeader = true → i = j

end Cluster

/-! ## The calls of a node -/

namespace Election

variable {l : Election} {tok : RedisToken} {tokenId : List Char}

/-- A node that is not leader any more. -/
def lost (l : Election) : Election := { l with isLeader := false, activeTok := none }

/-- A node after its `Refresh`. -/
def refreshed (l : Election) : Except String Int → Election
  | .error _ => l.lost
  | .ok res => if res = 0 then l.lost else l

/-- A node after its `Acquire`. -/
def acquired (l : Election) (tokenId : List Char) : Except String Bool → Election
  | .ok true =>
    { l with isLeader := true, activeTok := some ⟨l.resource, tokenId, l.leaseDuration⟩ }
  | _ => { l with isLeader := false }

theorem step_of_claim (h : l.claim = some tok) : l.step tokenId =
    .call (.refreshScript (lockKey tok.resource) tok.id (milliseconds l.leaseDuration))
      fun r => .ret (l.refreshed r) := by
  unfold step
  rw [h]
  refine congrArg (Proc.call _) (funext fun r => ?_)
  match r with
  | .error e => rfl
  | .ok res =>
    show Proc.bind (if res = 0 then _ else _) _ = Proc.ret (if res = 0 then l.lost else l)
    split
    · rfl
    · rfl

theorem step_of_no_claim (h : l.claim = none) : l.step tokenId =
    .call (.setNX (lockKey l.resource) tokenId (formatMs l.leaseDuration))
      fun r => .ret (l.acquired tokenId r) := by
  unfold step
  rw [h]
  refine congrArg (Proc.call _) (funext fun r => ?_)
  match r with
  | .error e => rfl
  | .ok false => rfl
  | .ok true => rfl

theorem resign_of_claim (h : l.claim = some tok) : (l.resign.bind fun r => .ret r.2) =
    .call (.unlockScript (lockKey tok.resource) tok.id) fun _ => .ret l.lost := by
  unfold resign
  rw [h]
  refine congrArg (Proc.call _) (funext fun r => ?_)
  match r with
  | .error e => rfl
  | .ok res =>
    show Proc.bind (Proc.bind (if res = 0 then _ else _) _) _ = Proc.ret l.lost
    split
    · rfl
    · rfl

theorem resign_of_no_claim (h : l.claim = none) :
    (l.resign.bind fun r => .ret r.2 : Locking Election) = .ret l := by
  unfold resign
  rw [h]
  rfl

/-- What is true of every node's copy of its state: it campaigns for `r` with a lease of a
millisecond or more, and has a token of `r` if it is leader. -/
structure WellFormed (r : List Char) (l : Election) : Prop where
  resource : l.resource = r
  lease : 10 ^ 6 ≤ l.leaseDuration
  token : ∀ tok, l.activeTok = some tok → tok.resource = r
  leader : l.isLeader = true → l.activeTok.isSome = true

variable {r : List Char}

theorem WellFormed.lost (h : WellFormed r l) : WellFormed r l.lost :=
  ⟨h.resource, h.lease, nofun, nofun⟩

theorem WellFormed.refreshed (h : WellFormed r l) (reply : Except String Int) :
    WellFormed r (l.refreshed reply) := by
  unfold Election.refreshed
  split
  · exact h.lost
  · split
    · exact h.lost
    · exact h

theorem WellFormed.acquired (h : WellFormed r l) (tokenId : List Char)
    (reply : Except String Bool) :
    WellFormed r (l.acquired tokenId reply) := by
  unfold Election.acquired
  split
  · refine ⟨h.resource, h.lease, fun tok ht => ?_, fun _ => rfl⟩
    cases ht
    exact h.resource
  · exact ⟨h.resource, h.lease, h.token, nofun⟩

theorem WellFormed.claim_resource (h : WellFormed r l) (hc : l.claim = some tok) :
    tok.resource = r := by
  unfold claim at hc
  split at hc
  · exact h.token tok hc
  · cases hc

end Election

/-- What a call of a node can be: one that has not sent its command, or one that has its reply. -/
inductive Phase (l : Election) : Locking Election → Prop
  | step (tokenId : List Char) : Phase l (l.step tokenId)
  | resign : Phase l (l.resign.bind fun r => .ret r.2)
  | returned (l' : Election) : Phase l (.ret l')

/-! ## The invariant -/

namespace Cluster

/-- A node of a campaign for `r`. -/
structure Sound (r : List Char) (n : Node) : Prop where
  election : n.election.WellFormed r
  result : ∀ l, n.returned = some l → l.WellFormed r
  phase : ∀ p, n.running = some p → Phase n.election p

/-- **The invariant**: of all nodes one at most is leader or about to be, and unless it is about to
leave, the lease in Redis is its own. -/
structure Safe (r : List Char) (x : Cluster) : Prop where
  sound : ∀ n ∈ x.nodes, Sound r n
  one : ∀ (i j : Nat) (n n' : Node), x.nodes[i]? = some n → x.nodes[j]? = some n' →
    n.claim.isSome = true → n'.claim.isSome = true → i = j
  held : ∀ n ∈ x.nodes, n.leaving = false → ∀ tok, n.claim = some tok →
    x.redis.get x.now (lockKey r) = some tok.id

variable {r : List Char} {x x' : Cluster} {i : Nat} {n n' : Node}

/-- A node goes on. If it claims the lease then, no other node does, and what it did to Redis does
not matter to a node that claims the lease. -/
theorem Safe.put (h : Safe r x) {redis : Redis} (hsound : Sound r n')
    (hheld : n'.leaving = false → ∀ tok, n'.claim = some tok →
      redis.get x.now (lockKey r) = some tok.id)
    (hother : ∀ j m, x.nodes[j]? = some m → j ≠ i → m.claim.isSome = true →
      n'.claim = none ∧ (m.leaving = false →
        redis.get x.now (lockKey r) = x.redis.get x.now (lockKey r))) :
    Safe r ({ x with redis := redis }.put i n') where
  sound m hm := by
    rcases List.mem_or_eq_of_mem_set hm with hm | rfl
    · exact h.sound m hm
    · exact hsound
  one j k m m' hj hk hm hm' := by
    rw [Cluster.put, List.getElem?_set] at hj hk
    split at hj
    · next heq =>
      split at hk
      · next heq' => exact heq.symm.trans heq'
      · next hne =>
        split at hj
        · cases hj
          rw [(hother k m' hk (Ne.symm hne) hm').1] at hm
          cases hm
        · cases hj
    · next hne =>
      split at hk
      · next heq =>
        split at hk
        · cases hk
          rw [(hother j m hj (Ne.symm hne) hm).1] at hm'
          cases hm'
        · cases hk
      · exact h.one j k m m' hj hk hm hm'
  held m hm hstay tok htok := by
    obtain ⟨j, hj⟩ := List.mem_iff_getElem?.1 hm
    rw [Cluster.put, List.getElem?_set] at hj
    split at hj
    · split at hj
      · cases hj
        exact hheld hstay tok htok
      · cases hj
    · next hne =>
      have hsome : m.claim.isSome = true := by rw [htok]; rfl
      refine ((hother j m hj (Ne.symm hne) hsome).2 hstay).trans ?_
      exact h.held m (List.mem_of_getElem? hj) hstay tok htok

/-- A node that claims the lease goes on: there is no other one. -/
theorem Safe.put_claimant (h : Safe r x) {redis : Redis} (hi : x.nodes[i]? = some n)
    (hclaim : n.claim.isSome = true) (hsound : Sound r n')
    (hheld : n'.leaving = false → ∀ tok, n'.claim = some tok →
      redis.get x.now (lockKey r) = some tok.id) :
    Safe r ({ x with redis := redis }.put i n') :=
  h.put hsound hheld fun j m hj hne hm => absurd (h.one j i m n hj hi hm hclaim) hne

/-- A node with a free mutex claims what its flag says, and is not leaving. -/
theorem claim_of_returned_none (h : n.returned = none) :
    n.claim = n.election.claim ∧ n.leaving = false := by
  simp [Node.claim, Node.leaving, h]

theorem claim_of_returned (h : n.returned = some l) :
    n.claim = l.claim.or n.election.claim ∧
      n.leaving = (n.election.claim.isSome && l.claim.isNone) := by
  simp [Node.claim, Node.leaving, h]

/-- A node goes on and does nothing to Redis, nor claims the lease if it did not before. -/
theorem Safe.put_keep (h : Safe r x) (hi : x.nodes[i]? = some n) (hsound : Sound r n')
    (hclaim : n'.claim.isSome = true → n.claim.isSome = true)
    (hheld : n'.leaving = false → ∀ tok, n'.claim = some tok →
      x.redis.get x.now (lockKey r) = some tok.id) :
    Safe r (x.put i n') := by
  refine h.put hsound hheld fun j m hj hne hm => ⟨?_, fun _ => rfl⟩
  refine Option.not_isSome_iff_eq_none.1 fun hsome => ?_
  exact hne (h.one j i m n hj hi hm (hclaim hsome))

theorem Sound.claim_resource (h : Sound r n) (htok : n.claim = some tok) : tok.resource = r := by
  unfold Node.claim at htok
  cases hret : n.returned with
  | none =>
    rw [hret, Option.bind_none, Option.none_or] at htok
    exact h.election.claim_resource htok
  | some l =>
    rw [hret, Option.bind_some, Option.or_eq_some_iff] at htok
    rcases htok with htok | ⟨-, htok⟩
    · exact (h.result l hret).claim_resource htok
    · exact h.election.claim_resource htok

/-- A node gets its reply. -/
theorem Sound.return (h : Sound r n) {l : Election} (hl : l.WellFormed r) :
    Sound r { n with running := some (.ret l) } where
  election := h.election
  result l' hl' := by
    cases hl'
    exact hl
  phase p hp := by
    cases hp
    exact .returned l

/-! ## Steps -/

theorem Safe.tick (h : Safe r x) {ms : Nat} (htimely : Timely x (.tick ms)) :
    Safe r { x with now := x.now + ms } where
  sound := h.sound
  one := h.one
  held m hm hstay tok htok := by
    obtain ⟨d, he, hle⟩ := Redis.get_eq_some.1 (h.held m hm hstay tok htok)
    have hresource : tok.resource = r := (h.sound m hm).claim_resource htok
    exact Redis.get_eq_some.2 ⟨d, he, htimely m hm hstay tok htok _ (hresource ▸ he) rfl⟩

/-- A call begins, and does not get ahead of its command. -/
theorem Safe.begin (h : Safe r x) (hp : ∀ l, Phase l (p l)) (hret : ∀ l l', p l = .ret l' → l' = l)
    (hstep : x.begin i p = some x') : Safe r x' := by
  unfold Cluster.begin at hstep
  split at hstep
  · next n hi =>
    have hn := h.sound n (List.mem_of_getElem? hi)
    split at hstep
    · cases hstep
    · next hidle =>
      cases hstep
      have hreturned : n.returned = none := by
        rw [Node.returned, Option.not_isSome_iff_eq_none.1 hidle]
      obtain ⟨hclaim, hstay⟩ := claim_of_returned_none hreturned
      have hresult : ∀ l, Node.returned { n with running := some (p n.election) } = some l →
          l = n.election := by
        intro l hl
        refine hret n.election l ?_
        unfold Node.returned at hl
        split at hl
        · next l' heq =>
          cases hl
          exact Option.some.inj heq
        · cases hl
      have hclaim' : Node.claim { n with running := some (p n.election) } = n.claim := by
        rw [hclaim]
        cases hr : Node.returned { n with running := some (p n.election) } with
        | none => exact (claim_of_returned_none hr).1
        | some l =>
          rw [(claim_of_returned hr).1, hresult l hr]
          exact Option.or_self
      refine h.put_keep hi ⟨hn.election, fun l hl => hresult l hl ▸ hn.election, ?_⟩ ?_ ?_
      · intro q hq
        cases hq
        exact hp n.election
      · rw [hclaim']
        exact id
      · intro _ tok htok
        exact h.held n (List.mem_of_getElem? hi) hstay tok (hclaim' ▸ htok)
  · cases hstep

/-- A call stores its result. -/
theorem Safe.finish (h : Safe r x) (hstep : x.finish i = some x') : Safe r x' := by
  unfold Cluster.finish at hstep
  split at hstep
  · cases hstep
  · next n hi =>
    obtain ⟨l, hl, rfl⟩ := Option.map_eq_some_iff.1 hstep
    have hmem := List.mem_of_getElem? hi
    obtain ⟨hclaim, hleaving⟩ := claim_of_returned hl
    obtain ⟨hclaim', -⟩ := claim_of_returned_none (n := ⟨l, none⟩) rfl
    refine h.put_keep hi ⟨(h.sound n hmem).result l hl, nofun, nofun⟩ (fun hsome => ?_)
      fun _ tok htok => ?_
    · rw [hclaim, Option.isSome_or, ← hclaim', hsome, Bool.true_or]
    · rw [hclaim'] at htok
      refine h.held n hmem ?_ tok ?_
      · rw [hleaving, htok, Option.isNone_some, Bool.and_false]
      · rw [hclaim, htok, Option.some_or]

/-- What running a command can do. -/
theorem exec_cases (hstep : x.exec i fault = some x') :
    ∃ n c next, x.nodes[i]? = some n ∧ n.running = some (.call c next) ∧
      ((fault = none ∧ x' = { x with redis := (Redis.exec x.now c x.redis).2 }.put i
          { n with running := some (next (Redis.exec x.now c x.redis).1) }) ∨
        ∃ (applied : Bool) (err : String), x' =
          { x with redis := if applied then (Redis.exec x.now c x.redis).2 else x.redis }.put i
            { n with running := some (next (c.failed err)) }) := by
  unfold Cluster.exec at hstep
  split at hstep
  · cases hstep
  · next n hi =>
    split at hstep
    · next c next hrun =>
      refine ⟨n, c, next, hi, hrun, ?_⟩
      dsimp only at hstep
      split at hstep
      · cases hstep
        exact .inl ⟨rfl, rfl⟩
      · next applied err =>
        cases hstep
        exact .inr ⟨applied, err, rfl⟩
    · cases hstep

/-- A claimant that gets its reply and gives up its claim is leaving. -/
theorem leaving_of_lost (hclaim : n.election.claim.isSome = true) (hl : l.claim = none) :
    Node.leaving { n with running := some (.ret l) } = true := by
  rw [(claim_of_returned (n := { n with running := some (.ret l) }) rfl).2, hl]
  exact Bool.and_eq_true_iff.2 ⟨hclaim, rfl⟩

/-- A claimant goes on with a reply that makes it give up its claim. -/
theorem Safe.give_up (h : Safe r x) (hi : x.nodes[i]? = some n) (hreturned : n.returned = none)
    (hclaim : n.election.claim.isSome = true) (hwf : l.WellFormed r) (hl : l.claim = none)
    (redis : Redis) :
    Safe r ({ x with redis := redis }.put i { n with running := some (.ret l) }) := by
  have hn := h.sound n (List.mem_of_getElem? hi)
  refine h.put_claimant hi ?_ (hn.return hwf) fun hstay => ?_
  · rw [(claim_of_returned_none hreturned).1]
    exact hclaim
  · rw [leaving_of_lost hclaim hl] at hstay
    cases hstay

/-- A leader refreshes its lease. -/
theorem Safe.refresh (h : Safe r x) (hi : x.nodes[i]? = some n) (hreturned : n.returned = none)
    (hclaim : n.election.claim = some tok) :
    Safe r ({ x with redis := (Redis.exec x.now (.refreshScript (lockKey tok.resource) tok.id
        (milliseconds n.election.leaseDuration)) x.redis).2 }.put i
      { n with running := some (.ret (n.election.refreshed (Redis.exec x.now
        (.refreshScript (lockKey tok.resource) tok.id
          (milliseconds n.election.leaseDuration)) x.redis).1)) }) := by
  have hmem := List.mem_of_getElem? hi
  have hn := h.sound n hmem
  obtain ⟨hclaim', hstay⟩ := claim_of_returned_none hreturned
  have hresource : tok.resource = r := hn.election.claim_resource hclaim
  have hget : x.redis.get x.now (lockKey tok.resource) = some tok.id :=
    hresource ▸ h.held n hmem hstay tok (hclaim'.trans hclaim)
  have hms : milliseconds n.election.leaseDuration ≠ 0 := by
    have := hn.election.lease
    unfold milliseconds
    omega
  have hexec : x.redis.refreshScript x.now (lockKey tok.resource) tok.id
      (milliseconds n.election.leaseDuration) = (1, x.redis.insert (lockKey tok.resource)
        ⟨tok.id, x.now + milliseconds n.election.leaseDuration⟩) := by
    rw [Redis.refreshScript, if_pos hget, if_neg hms]
  simp only [Redis.exec, hexec]
  refine h.put_claimant hi (by rw [hclaim', hclaim]; rfl) (hn.return (hn.election.refreshed _)) ?_
  intro _ tok' htok'
  have heq : tok' = tok := by
    rw [(claim_of_returned (l := n.election) rfl).1, Option.or_self, hclaim] at htok'
    exact (Option.some.inj htok').symm
  rw [heq, Redis.get_eq_some, hresource, Table.lookup_insert_eq, if_pos rfl]
  exact ⟨_, rfl, Nat.le_add_right _ _⟩

/-- A node that is not leader gets the reply to its `SET NX`. -/
theorem claim_acquired_node (tokenId : List Char) (reply : Except String Bool)
    (hclaim : n.election.claim = none) (hreply : reply ≠ .ok true) :
    Node.claim { n with running := some (.ret (n.election.acquired tokenId reply)) } = none := by
  -- only a `SET NX` that succeeds makes a claim
  have hnone : (n.election.acquired tokenId reply).claim = none := by
    unfold Election.acquired
    split
    · exact absurd rfl hreply
    · rfl
  rw [(claim_of_returned rfl).1, hnone]
  exact hclaim

/-- **A node acquires the lease**, where nobody is about to leave: if the key is free, nobody has a
claim. -/
theorem Safe.acquire (h : Safe r x) (hi : x.nodes[i]? = some n)
    (hclaim : n.election.claim = none) (hstay : ∀ m ∈ x.nodes, m.leaving = false)
    (tokenId : List Char) :
    Safe r ({ x with redis := (Redis.exec x.now (.setNX (lockKey n.election.resource) tokenId
        (formatMs n.election.leaseDuration)) x.redis).2 }.put i
      { n with running := some (.ret (n.election.acquired tokenId (Redis.exec x.now
        (.setNX (lockKey n.election.resource) tokenId (formatMs n.election.leaseDuration))
          x.redis).1)) }) := by
  have hn := h.sound n (List.mem_of_getElem? hi)
  have hresource : n.election.resource = r := hn.election.resource
  have hsound := hn.return (hn.election.acquired tokenId
    (Redis.exec x.now (.setNX (lockKey n.election.resource) tokenId
      (formatMs n.election.leaseDuration)) x.redis).1)
  cases hget : x.redis.get x.now (lockKey n.election.resource) with
  | some id =>
    simp only [Redis.exec, Redis.setNX_of_get hget] at hsound ⊢
    have hnone := claim_acquired_node tokenId (.ok false) hclaim nofun
    refine h.put_keep hi hsound (fun hsome => ?_) fun _ tok htok => ?_
    · rw [hnone] at hsome
      cases hsome
    · cases hnone.symm.trans htok
  | none =>
    simp only [Redis.exec, Redis.setNX_of_free hget] at hsound ⊢
    refine h.put hsound (fun _ tok htok => ?_) fun j m hj hne hm => ?_
    · obtain rfl :
          (⟨n.election.resource, tokenId, n.election.leaseDuration⟩ : RedisToken) = tok := by
        exact Option.some.inj htok
      rw [Redis.get_eq_some, hresource, Table.lookup_insert_eq, if_pos rfl]
      exact ⟨_, rfl, Nat.le_add_right _ _⟩
    · obtain ⟨tok, htok⟩ := Option.isSome_iff_exists.1 hm
      have hmem := List.mem_of_getElem? hj
      cases (hresource ▸ hget).symm.trans (h.held m hmem (hstay m hmem) tok htok)

/-- A `SET NX` that fails, with or without its effect: a lease that somebody has is not touched. -/
theorem Safe.acquire_failed (h : Safe r x) (hi : x.nodes[i]? = some n)
    (hclaim : n.election.claim = none) (tokenId : List Char) (applied : Bool) (err : String) :
    Safe r ({ x with redis := if applied then (Redis.exec x.now (.setNX
        (lockKey n.election.resource) tokenId (formatMs n.election.leaseDuration)) x.redis).2
        else x.redis }.put i
      { n with running := some (.ret (n.election.acquired tokenId (.error err))) }) := by
  have hn := h.sound n (List.mem_of_getElem? hi)
  have hnone := claim_acquired_node tokenId (.error err) hclaim nofun
  refine h.put (hn.return (hn.election.acquired _ _)) (fun _ tok htok => ?_) fun j m hj hne hm => ?_
  · cases hnone.symm.trans htok
  · refine ⟨hnone, fun hstay => ?_⟩
    obtain ⟨tok, htok⟩ := Option.isSome_iff_exists.1 hm
    have hget := h.held m (List.mem_of_getElem? hj) hstay tok htok
    rw [← hn.election.resource] at hget
    cases applied with
    | true => simp only [Redis.exec, Redis.setNX_of_get hget, if_true]
    | false => rfl

/-- **A command is run, or fails.** -/
theorem Safe.exec (h : Safe r x) (htimely : Timely x (.exec i fault))
    (hstep : x.exec i fault = some x') : Safe r x' := by
  obtain ⟨n, c, next, hi, hrun, hx'⟩ := exec_cases hstep
  have hn := h.sound n (List.mem_of_getElem? hi)
  have hreturned : n.returned = none := by rw [Node.returned, hrun]
  have hphase := hn.phase _ hrun
  generalize hp : Proc.call c next = p at hphase
  cases hphase with
  | step tokenId =>
    cases hclaim : n.election.claim with
    | some tok =>
      rw [Election.step_of_claim hclaim] at hp
      cases hp
      rcases hx' with ⟨rfl, rfl⟩ | ⟨applied, err, rfl⟩
      · exact h.refresh hi hreturned hclaim
      · exact h.give_up hi hreturned (by rw [hclaim]; rfl) hn.election.lost rfl _
    | none =>
      rw [Election.step_of_no_claim hclaim] at hp
      cases hp
      rcases hx' with ⟨rfl, rfl⟩ | ⟨applied, err, rfl⟩
      · have hacquiring : n.acquiring = true := by rw [Node.acquiring, hrun]
        exact h.acquire hi hclaim (htimely n hi hacquiring) tokenId
      · exact h.acquire_failed hi hclaim tokenId applied err
  | resign =>
    cases hclaim : n.election.claim with
    | some tok =>
      rw [Election.resign_of_claim hclaim] at hp
      cases hp
      rcases hx' with ⟨rfl, rfl⟩ | ⟨applied, err, rfl⟩
      · exact h.give_up hi hreturned (by rw [hclaim]; rfl) hn.election.lost rfl _
      · exact h.give_up hi hreturned (by rw [hclaim]; rfl) hn.election.lost rfl _
    | none =>
      rw [Election.resign_of_no_claim hclaim] at hp
      cases hp
  | returned l => cases hp

theorem Safe.step (h : Safe r x) (htimely : Timely x a) (hstep : x.step a = some x') :
    Safe r x' := by
  cases a with
  | tick ms =>
    cases hstep
    exact h.tick htimely
  | step i tokenId =>
    refine h.begin (fun l => .step tokenId) (fun l l' hret => ?_) hstep
    cases hclaim : l.claim with
    | some tok =>
      rw [Election.step_of_claim hclaim] at hret
      cases hret
    | none =>
      rw [Election.step_of_no_claim hclaim] at hret
      cases hret
  | resign i =>
    refine h.begin (fun l => .resign) (fun l l' hret => ?_) hstep
    cases hclaim : l.claim with
    | some tok =>
      rw [Election.resign_of_claim hclaim] at hret
      cases hret
    | none =>
      rw [Election.resign_of_no_claim hclaim] at hret
      cases hret
      rfl
  | exec i fault => exact h.exec htimely hstep
  | finish i => exact h.finish hstep

/-! ## Runs -/

/-- Configurations of a campaign for `r` whose leases are not shorter than a millisecond. -/
def Campaign (r : List Char) (cfgs : List LeaderConfig) : Prop :=
  ∀ cfg ∈ cfgs, (newLeaderElection cfg).resource = r ∧
    10 ^ 6 ≤ (newLeaderElection cfg).leaseDuration

theorem safe_init {cfgs : List LeaderConfig} (h : Campaign r cfgs) (redis : Redis) (now : Nat) :
    Safe r (init redis now cfgs) where
  sound n hn := by
    obtain ⟨cfg, hcfg, rfl⟩ := List.mem_map.1 hn
    obtain ⟨hresource, hlease⟩ := h cfg hcfg
    exact ⟨⟨hresource, hlease, nofun, nofun⟩, nofun, nofun⟩
  one i j n n' hi _ hn _ := by
    obtain ⟨cfg, -, rfl⟩ := List.mem_map.1 (List.mem_of_getElem? hi)
    cases hn
  held n hn _ tok htok := by
    obtain ⟨cfg, -, rfl⟩ := List.mem_map.1 hn
    cases htok

theorem Safe.oneLeader (h : Safe r x) : OneLeader x := by
  have hclaim : ∀ n ∈ x.nodes, n.isLeader = true → n.claim.isSome = true := by
    intro n hn hl
    have hsome := (h.sound n hn).election.leader hl
    rw [Node.claim, Option.isSome_or, Election.claim,
      if_pos (show n.election.isLeader = true from hl), hsome, Bool.or_true]
  intro i j n n' hi hj hl hl'
  exact h.one i j n n' hi hj (hclaim n (List.mem_of_getElem? hi) hl)
    (hclaim n' (List.mem_of_getElem? hj) hl')

/-- **One leader at most**, in every run in which no lease runs out under a node that has its flag
set or is about to, and no `Acquire` is run while a node is about to clear its flag. -/
theorem oneLeader_of_timely (r : List Char) (cfgs : List LeaderConfig) (hcfgs : Campaign r cfgs)
    (redis : Redis) (now : Nat) (acts : List Act) (x : Cluster)
    (htimely : Run.Throughout step Timely (init redis now cfgs) acts)
    (hrun : Run.run step (init redis now cfgs) acts = some x) : OneLeader x := by
  have hsafe : Safe r x := Run.Throughout.run_induction (fun h ht hs => h.step ht hs)
    (safe_init hcfgs redis now) htimely hrun
  exact hsafe.oneLeader

/-! ## A handover and a stale flag -/

/-- Two nodes with leases of ten milliseconds. -/
def twoNodes : List LeaderConfig := List.replicate 2 ⟨['r'], 10 * 10 ^ 6⟩

/-- A whole call of `step`. -/
def campaign (i : Nat) (tokenId : List Char) : List Act :=
  [.step i tokenId, .exec i none, .finish i]

/-- The first node leads, refreshes its lease and resigns, and the second one takes over. -/
def handover : List Act :=
  campaign 0 ['a'] ++ campaign 1 ['b'] ++ .tick 5 :: campaign 0 ['c'] ++
    [.resign 0, .exec 0 none, .finish 0] ++ campaign 1 ['d']

theorem oneLeader_of_timely_handover :
    ∃ x, Run.run step (init ∅ 0 twoNodes) handover = some x ∧
      x.nodes.map Node.isLeader = [false, true] ∧ OneLeader x := by
  have hrun : (Run.run step (init ∅ 0 twoNodes) handover).map (fun x => x.nodes.map Node.isLeader) =
      some [false, true] := by
    decide +kernel
  obtain ⟨x, hx, hleaders⟩ := Option.map_eq_some_iff.1 hrun
  refine ⟨x, hx, hleaders, oneLeader_of_timely ['r'] twoNodes ?_ ∅ 0 handover x ?_ hx⟩
  · intro cfg hcfg
    rw [List.eq_of_mem_replicate hcfg]
    decide
  · refine Run.Throughout.of_throughout (fun x a => of_decide_eq_true) ?_
    decide +kernel

/-- The first node is delayed for longer than its lease, and keeps its flag. -/
theorem two_leaders_lease_expired :
    ∃ x, Run.run step (init ∅ 0 twoNodes) (campaign 0 ['a'] ++ .tick 11 :: campaign 1 ['b']) =
        some x ∧ x.nodes.map Node.isLeader = [true, true] ∧ ¬ OneLeader x := by
  have hrun : (Run.run step (init ∅ 0 twoNodes)
      (campaign 0 ['a'] ++ .tick 11 :: campaign 1 ['b'])).map (fun x => x.nodes.map Node.isLeader) =
      some [true, true] := by
    decide +kernel
  obtain ⟨x, hx, hleaders⟩ := Option.map_eq_some_iff.1 hrun
  refine ⟨x, hx, hleaders, fun hone => ?_⟩
  match hnodes : x.nodes with
  | [n, n'] =>
    rw [hnodes] at hleaders
    simp only [List.map_cons, List.map_nil, List.cons.injEq, and_true] at hleaders
    have heq := hone 0 1 n n' (by rw [hnodes]; rfl) (by rw [hnodes]; rfl) hleaders.1 hleaders.2
    cases heq
  | [] | [_] | _ :: _ :: _ :: _ => simp [hnodes] at hleaders

end Cluster

end Aegis.Lock
