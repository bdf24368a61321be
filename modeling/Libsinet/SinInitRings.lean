import Libsinet.SinInitUndo

/-!
# Which rings `sin_init` gives to whom

The lines of `sin_init` that register the descriptors and set `tx_ring` and
`rx_ring` of each `struct wrk_set`. There are `nr_rx_rings` of these besides
`hst`, whatever the number of tx rings is.
-/

namespace Libsinet.SinInit

open Code

inductive RingId
  | hwTx (i : Nat)
  | hostTx
  | hwRx (i : Nat)
  | hostRx
  deriving DecidableEq, Repr

/-- `struct netmap_if`, each entry of `ring_ofs` as the ring it leads to. Its
counts are also the `nr_tx_rings` and `nr_rx_rings` of the request. -/
structure NetmapIf where
  niTxRings : Nat
  niRxRings : Nat
  ringOfs : Nat → RingId

def netmapTxring (nifp : NetmapIf) (i : Nat) : RingId := nifp.ringOfs i

def netmapRxring (nifp : NetmapIf) (i : Nat) : RingId := nifp.ringOfs (i + nifp.niTxRings + 1)

/-- What netmap puts into `ring_ofs`. -/
structure Layout (nifp : NetmapIf) : Prop where
  hwTx : ∀ i < nifp.niTxRings, nifp.ringOfs i = .hwTx i
  hostTx : nifp.ringOfs nifp.niTxRings = .hostTx
  hwRx : ∀ i < nifp.niRxRings, nifp.ringOfs (nifp.niTxRings + 1 + i) = .hwRx i
  hostRx : nifp.ringOfs (nifp.niTxRings + 1 + nifp.niRxRings) = .hostRx

structure WrkRings where
  tx : Ring → Option RingId
  rx : Ring → Option RingId

def WrkRings.set (w : WrkRings) (r : Ring) (nifp : NetmapIf) (i : Nat) : WrkRings :=
  ⟨Function.update w.tx r (some (netmapTxring nifp i)), Function.update w.rx r (some (netmapRxring nifp i))⟩

section
variable (nifp : NetmapIf) (ok : Call → Bool)

def ioctlRing (r : Ring) : Code Label WrkRings PUnit := if ok (.regifRing r) then pure ⟨⟩ else throw .erUndo2

/-- The loop over `phy[i]`, and the `i` it leaves behind. -/
def registerPhy : Nat → Code Label WrkRings Nat
  | 0 => pure 0
  | n + 1 => do
    let i ← registerPhy n
    ioctlRing ok (.phy i)
    modify (·.set (.phy i) nifp i)
    pure (i + 1)

def registerRings (nrings : Nat) : Code Label WrkRings PUnit := do
  let i ← registerPhy nifp ok nrings
  ioctlRing ok .hst
  modify (·.set .hst nifp i)

/-- The rings in the instance `sin_init` returns. -/
def sinInitRings : Option WrkRings :=
  match (sinInit nifp.niRxRings ok).ret,
      (registerRings nifp ok nifp.niRxRings).exec ⟨fun _ => none, fun _ => none⟩ with
  | some _, (.ok _, w) => some w
  | _, _ => none

end

variable {nifp : NetmapIf} {ok : Call → Bool} {w : WrkRings} {n : Nat}

-- ---------------------------------------------------------------------------
-- What is registered
-- ---------------------------------------------------------------------------

def PhySet (nifp : NetmapIf) (n : Nat) (w : WrkRings) : Prop :=
  ∀ i < n, w.tx (.phy i) = some (netmapTxring nifp i) ∧ w.rx (.phy i) = some (netmapRxring nifp i)

structure Registered (nifp : NetmapIf) (n : Nat) (w : WrkRings) : Prop where
  phy : PhySet nifp n w
  hstTx : w.tx .hst = some (netmapTxring nifp n)
  hstRx : w.rx .hst = some (netmapRxring nifp n)

theorem PhySet.succ (h : PhySet nifp n w) : PhySet nifp (n + 1) (w.set (.phy n) nifp n) := by
  intro i hi
  rcases Nat.lt_succ_iff_lt_or_eq.mp hi with hlt | rfl
  · have hne : Ring.phy i ≠ .phy n := fun he => hlt.ne (Ring.phy.inj he)
    simpa [WrkRings.set, Function.update_of_ne hne] using h i hlt
  · simp [WrkRings.set]

theorem PhySet.hst (h : PhySet nifp n w) : Registered nifp n (w.set .hst nifp n) := by
  refine ⟨fun i hi => ?_, ?_, ?_⟩
  · simpa [WrkRings.set] using h i hi
  · simp [WrkRings.set]
  · simp [WrkRings.set]

theorem ioctlRing_triple (r : Ring) (P : WrkRings → Prop) :
    Triple P (ioctlRing ok r) (fun _ => P) fun _ _ => True := by
  intro w hw
  cases hr : ok (.regifRing r) with
  | true => simpa [ioctlRing, hr] using hw
  | false => simp [ioctlRing, hr]

theorem registerPhy_triple (n : Nat) :
    Triple (fun _ => True) (registerPhy nifp ok n) (fun i w => i = n ∧ PhySet nifp n w) fun _ _ => True := by
  induction n with
  | zero => exact fun w _ => ⟨rfl, fun i hi => absurd hi (Nat.not_lt_zero i)⟩
  | succ n ih =>
    refine .bind ih fun i => .bind (ioctlRing_triple _ _) fun _ => ?_
    rintro w ⟨rfl, hw⟩
    exact ⟨rfl, hw.succ⟩

theorem registerRings_triple (n : Nat) :
    Triple (fun _ => True) (registerRings nifp ok n) (fun _ => Registered nifp n) fun _ _ => True := by
  refine .bind (registerPhy_triple n) fun i => .bind (ioctlRing_triple _ _) fun _ => ?_
  rintro w ⟨rfl, hw⟩
  exact hw.hst

theorem sinInitRings_registered (h : sinInitRings nifp ok = some w) : Registered nifp nifp.niRxRings w := by
  have ht := @registerRings_triple nifp ok nifp.niRxRings ⟨fun _ => none, fun _ => none⟩ trivial
  unfold sinInitRings at h
  split at h
  · rename_i hx
    rw [hx] at ht
    cases h
    exact ht
  · cases h

theorem registerPhy_exec (hok : ∀ i < n, ok (.regifRing (.phy i)) = true) (w : WrkRings) :
    ∃ w', (registerPhy nifp ok n).exec w = (.ok n, w') := by
  induction n with
  | zero => exact ⟨w, rfl⟩
  | succ n ih =>
    obtain ⟨w', hw'⟩ := ih fun i hi => hok i (Nat.lt_succ_of_lt hi)
    refine ⟨w'.set (.phy n) nifp n, ?_⟩
    simp only [registerPhy, exec_bind, hw', ioctlRing, hok n (Nat.lt_succ_self n), if_true, exec_pure, exec_modify]

/-- Rings are set in every instance that is returned. -/
theorem sinInitRings_isSome : (sinInitRings nifp ok).isSome = (sinInit nifp.niRxRings ok).ret.isSome := by
  cases hret : (sinInit nifp.niRxRings ok).ret with
  | none => simp [sinInitRings, hret]
  | some sip =>
    have hok : ∀ c ∈ calls nifp.niRxRings, ok c = true := by
      intro c hc
      by_contra hne
      rw [sinInit_ret.mpr ⟨c, hc, by simpa using hne⟩] at hret
      cases hret
    have hhst : ok (.regifRing .hst) = true := hok _ (by simp [calls])
    have hphy : ∀ i < nifp.niRxRings, ok (.regifRing (.phy i)) = true := fun i hi => hok _ (by simp [calls, hi])
    obtain ⟨w', hw'⟩ := @registerPhy_exec nifp ok _ hphy ⟨fun _ => none, fun _ => none⟩
    simp [sinInitRings, hret, registerRings, exec_bind, hw', ioctlRing, hhst]

-- ---------------------------------------------------------------------------
-- Roles
-- ---------------------------------------------------------------------------

inductive Place
  | tx (r : Ring)
  | rx (r : Ring)
  deriving DecidableEq, Repr

def WrkRings.at (w : WrkRings) : Place → Option RingId
  | .tx r => w.tx r
  | .rx r => w.rx r

def Ring.Below (n : Nat) : Ring → Prop
  | .phy i => i < n
  | .hst => True

def Place.Below (n : Nat) : Place → Prop
  | .tx r => r.Below n
  | .rx r => r.Below n

structure Roles (nifp : NetmapIf) (n : Nat) (w : WrkRings) : Prop where
  phyTx : ∀ i < n, ∃ j < nifp.niTxRings, w.tx (.phy i) = some (.hwTx j)
  phyRx : ∀ i < n, ∃ j < nifp.niRxRings, w.rx (.phy i) = some (.hwRx j)
  hstTx : w.tx .hst = some .hostTx
  hstRx : w.rx .hst = some .hostRx
  apart : ∀ p q : Place, p.Below n → q.Below n → w.at p = w.at q → p = q

theorem Layout.rxring (h : Layout nifp) (hi : i < nifp.niRxRings) : netmapRxring nifp i = .hwRx i := by
  rw [← h.hwRx i hi, netmapRxring]
  congr 1
  omega

theorem Layout.rxring_host (h : Layout nifp) : netmapRxring nifp nifp.niRxRings = .hostRx := by
  rw [← h.hostRx, netmapRxring]
  congr 1
  omega

def Place.role : Place → RingId
  | .tx (.phy i) => .hwTx i
  | .tx .hst => .hostTx
  | .rx (.phy i) => .hwRx i
  | .rx .hst => .hostRx

theorem Place.role_inj {p q : Place} (h : p.role = q.role) : p = q := by
  rcases p with (_ | _) | (_ | _) <;> rcases q with (_ | _) | (_ | _) <;> cases h <;> rfl

/-- With as many tx rings as rx rings every place has the ring it is for. -/
theorem Registered.at_eq (h : Registered nifp nifp.niRxRings w) (hl : Layout nifp)
    (heq : nifp.niTxRings = nifp.niRxRings) (p : Place) (hp : p.Below nifp.niRxRings) : w.at p = some p.role := by
  rcases p with (i | _) | (i | _)
  · have hi : i < nifp.niRxRings := hp
    exact (h.phy i hi).1.trans (congrArg some (hl.hwTx i (heq ▸ hi)))
  · rw [WrkRings.at, h.hstTx, netmapTxring, ← heq, hl.hostTx]
    rfl
  · have hi : i < nifp.niRxRings := hp
    exact (h.phy i hi).2.trans (congrArg some (hl.rxring hi))
  · exact h.hstRx.trans (congrArg some hl.rxring_host)

theorem Registered.roles (h : Registered nifp nifp.niRxRings w) (hl : Layout nifp)
    (heq : nifp.niTxRings = nifp.niRxRings) : Roles nifp nifp.niRxRings w := by
  have hat := h.at_eq hl heq
  refine ⟨fun i hi => ⟨i, heq ▸ hi, hat (.tx (.phy i)) hi⟩, fun i hi => ⟨i, hi, hat (.rx (.phy i)) hi⟩,
    hat (.tx .hst) trivial, hat (.rx .hst) trivial, fun p q hp hq he => ?_⟩
  rw [hat p hp, hat q hq] at he
  exact Place.role_inj (Option.some.inj he)

/-- With fewer rx rings `hst` is left a hardware tx ring. -/
theorem Registered.hstTx_of_lt (h : Registered nifp nifp.niRxRings w) (hl : Layout nifp)
    (hlt : nifp.niRxRings < nifp.niTxRings) : w.tx .hst = some (.hwTx nifp.niRxRings) := by
  rw [h.hstTx, netmapTxring, hl.hwTx _ hlt]

/-- With fewer tx rings the host tx ring goes to one of `phy`. -/
theorem Registered.phyTx_of_lt (h : Registered nifp nifp.niRxRings w) (hl : Layout nifp)
    (hlt : nifp.niTxRings < nifp.niRxRings) : w.tx (.phy nifp.niTxRings) = some .hostTx := by
  rw [(h.phy _ hlt).1, netmapTxring, hl.hostTx]

/-- With fewer tx rings `hst` sends into an rx ring, which one of `phy` also has. -/
theorem Registered.shared_of_lt (h : Registered nifp nifp.niRxRings w)
    (hlt : nifp.niTxRings < nifp.niRxRings) :
    w.tx .hst = w.rx (.phy (nifp.niRxRings - nifp.niTxRings - 1)) := by
  have hi : nifp.niRxRings - nifp.niTxRings - 1 < nifp.niRxRings := by omega
  rw [h.hstTx, (h.phy _ hi).2, netmapTxring, netmapRxring]
  congr 2
  omega

/-- Every ring gets its role exactly on devices with as many tx rings as rx
rings. -/
theorem sin_init_roles (hl : Layout nifp) (h : sinInitRings nifp ok = some w) :
    Roles nifp nifp.niRxRings w ↔ nifp.niTxRings = nifp.niRxRings := by
  have hreg := sinInitRings_registered h
  refine ⟨fun hroles => ?_, hreg.roles hl⟩
  rcases Nat.lt_trichotomy nifp.niTxRings nifp.niRxRings with hlt | heq | hlt
  · obtain ⟨j, -, hj⟩ := hroles.phyTx _ hlt
    rw [hreg.phyTx_of_lt hl hlt] at hj
    cases hj
  · exact heq
  · have hhost := hroles.hstTx
    rw [hreg.hstTx_of_lt hl hlt] at hhost
    cases hhost

/-- A table with all its rings in place. -/
def ringTable (nTx nRx : Nat) : NetmapIf :=
  ⟨nTx, nRx, fun k =>
    if k < nTx then .hwTx k
    else if k = nTx then .hostTx
    else if k < nTx + 1 + nRx then .hwRx (k - nTx - 1)
    else .hostRx⟩

theorem layout_ringTable (nTx nRx : Nat) : Layout (ringTable nTx nRx) := by
  refine ⟨fun i hi => ?_, ?_, fun i hi => ?_, ?_⟩
  · simp only [ringTable] at hi ⊢
    rw [if_pos hi]
  · simp [ringTable]
  · simp only [ringTable] at hi ⊢
    rw [if_neg (by omega), if_neg (by omega), if_pos (by omega)]
    congr 1
    omega
  · simp only [ringTable]
    rw [if_neg (by omega), if_neg (by omega), if_neg (by omega)]

theorem sin_init_roles_two : ∃ w, sinInitRings (ringTable 2 2) (fun _ => true) = some w ∧
    Roles (ringTable 2 2) 2 w := by
  obtain ⟨w, hw⟩ := Option.isSome_iff_exists.mp (show (sinInitRings (ringTable 2 2) fun _ => true).isSome by decide)
  exact ⟨w, hw, (sin_init_roles (layout_ringTable 2 2) hw).mpr rfl⟩

/-- One tx ring, two rx rings. -/
theorem sin_init_mixes_rings : ¬ ∀ nifp ok w, Layout nifp → 1 ≤ nifp.niTxRings → 1 ≤ nifp.niRxRings →
    sinInitRings nifp ok = some w → Roles nifp nifp.niRxRings w := by
  intro hall
  obtain ⟨w, hw⟩ := Option.isSome_iff_exists.mp (show (sinInitRings (ringTable 1 2) fun _ => true).isSome by decide)
  have hroles := hall _ _ w (layout_ringTable 1 2) (by decide) (by decide) hw
  have hhost := hroles.hstTx
  rw [(sinInitRings_registered hw).hstTx] at hhost
  exact absurd hhost (by decide)

end Libsinet.SinInit
