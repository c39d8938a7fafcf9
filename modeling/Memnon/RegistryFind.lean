import Memnon.RegistryRules

/-!
# find across threads, with reuse of objects and pages

A cache entry that `find` has widened to the bounds of a segment is checked
against the one leaf slot it was filled from, by pointer value. When another
thread unregisters the segment and registers a smaller one with the same object
over that leaf slot, the entry passes the check and answers for addresses that
belong to no segment. This is the only way: as long as the bounds that other
threads remember fit the segments registered at the same object, what `find`
returns is registered and owns the address.
-/

namespace Memnon.Trie

open Memnon.Lib Memnon.Lib.Prog

variable {T : Type} [DecidableEq T] {cfg : Config} {t u : T} {m : Memory T}
  {seg base size addr : Word} {r : Live T}

/-! ## 1. Calls and returns -/

omit [DecidableEq T] in
theorem not_hasPage_of_disjoint {base' size' p : Word}
    (h : PagesDisjoint cfg base size base' size') (hp : HasPage cfg base size p) :
    ¬ HasPage cfg base' size' p := by
  intro hp'
  simp only [HasPage, PagesDisjoint, BitVec.le_def, BitVec.lt_def] at h hp hp'
  omega

omit [DecidableEq T] in
theorem RegistryInv.addSegment (h : RegistryInv cfg m) (hrest : Resting t m)
    (hreg : Registrable cfg m seg base size) (hspace : InKeySpace cfg base size)
    (hfit : NoConflict cfg m t seg base size) :
    RegistryInv cfg (m.addSegment t seg base size) where
  heap := h.heap.congr rfl rfl
  leaf p hp hne := by
    obtain ⟨r, hr, hpage⟩ := h.leaf p hp hne
    exact ⟨r, List.mem_cons_of_mem _ hr, hpage⟩
  live r hr := by
    rcases List.mem_cons.mp hr with rfl | hr
    · exact ⟨hreg.1, hspace, Function.update_self ..⟩
    · obtain ⟨hptr, hsp, hobj⟩ := h.live r hr
      exact ⟨hptr, hsp, (Function.update_of_ne (hreg.2.2 r hr).1 _ _).trans hobj⟩
  disjoint r hr r' hr' p hp hp' := by
    rcases List.mem_cons.mp hr with rfl | hr <;> rcases List.mem_cons.mp hr' with rfl | hr'
    · rfl
    · exact absurd hp' (not_hasPage_of_disjoint (hreg.2.2 r' hr').2 hp)
    · exact absurd hp (not_hasPage_of_disjoint (hreg.2.2 r hr).2 hp')
    · exact h.disjoint r hr r' hr' p hp hp'
  cache := h.cache
  fits r hr u hu := by
    rcases List.mem_cons.mp hr with rfl | hr
    · exact (hfit u fun hut => hu (by rw [hut])).1
    · exact h.fits r hr u hu
  reading r hr u := by
    rcases List.mem_cons.mp hr with rfl | hr
    · by_cases hut : u = t
      · intro b z hread
        have hnone : m.reading t = some _ := hut ▸ hread
        rw [hrest.2] at hnone
        cases hnone
      · exact (hfit u hut).2
    · exact h.reading r hr u

omit [DecidableEq T] in
/-- Changes of phase: nothing but the phase changes, and an entry that was
    exempt from fitting fits when the exemption ends. -/
theorem RegistryInv.rephase (h : RegistryInv cfg m) {f : Live T → Live T}
    (hf : ∀ r, (f r).seg = r.seg ∧ (f r).base = r.base ∧ (f r).size = r.size)
    (hfits : ∀ r ∈ m.live, ∀ u, (f r).phase ≠ .registering u → CacheFits cfg m u r) :
    RegistryInv cfg { m with live := m.live.map f } where
  heap := h.heap.congr rfl rfl
  leaf p hp hne := by
    obtain ⟨r, hr, hpage, hvalue⟩ := h.leaf p hp hne
    refine ⟨f r, List.mem_map_of_mem hr, ?_, ?_⟩
    · rw [(hf r).2.1, (hf r).2.2]
      exact hpage
    · rw [(hf r).1]
      exact hvalue
  live r hr := by
    obtain ⟨r, hr₀, rfl⟩ := List.mem_map.mp hr
    rw [(hf r).1, (hf r).2.1, (hf r).2.2]
    exact h.live r hr₀
  disjoint r hr r' hr' p hp hp' := by
    obtain ⟨r, hr₀, rfl⟩ := List.mem_map.mp hr
    obtain ⟨r', hr₀', rfl⟩ := List.mem_map.mp hr'
    rw [(hf r).2.1, (hf r).2.2] at hp
    rw [(hf r').2.1, (hf r').2.2] at hp'
    rw [h.disjoint r hr₀ r' hr₀' p hp hp']
  cache := h.cache
  fits r hr u hu := by
    obtain ⟨r, hr₀, rfl⟩ := List.mem_map.mp hr
    intro e he hseg s q hs hslot hq
    rw [(hf r).1] at hseg
    rw [(hf r).2.1, (hf r).2.2] at hq ⊢
    exact hfits r hr₀ u hu e he hseg s q hs hslot hq
  reading r hr u := by
    obtain ⟨r, hr₀, rfl⟩ := List.mem_map.mp hr
    intro b z hread top htop hseg s q hs hslot hq
    rw [(hf r).1] at hread hseg
    rw [(hf r).2.1, (hf r).2.2] at hq ⊢
    exact h.reading r hr₀ u b z hread top htop hseg s q hs hslot hq

omit [DecidableEq T] in
/-- To a thread whose segments stay in the list, a change of the list is none. -/
theorem registryRely_live {live : List (Live T)} (object : Word → Word × Word)
    (h : ∀ r, r.phase.owner = some u → (r ∈ live ↔ r ∈ m.live)) :
    RegistryRely cfg u m { m with live := live, object := object } where
  linked := id
  fresh := id
  outOfMemory := id
  cache := rfl
  reading := rfl
  own := h
  pages _ _ _ _ _ := rfl
  warm hw r hr ho := hw r ((h r ho).mp hr) ho

theorem startUnregister_owner {r : Live T} (hut : u ≠ t)
    (h : (r.startUnregister t seg).phase.owner = some u ∨ r.phase.owner = some u) :
    r.startUnregister t seg = r := by
  unfold Live.startUnregister at h ⊢
  split
  · rename_i hr
    rw [if_pos hr, hr.2] at h
    rcases h with h | h
    · exact absurd (Option.some.inj h).symm hut
    · cases h
  · rfl

theorem finishRegister_owner {r : Live T} (hut : u ≠ t)
    (h : (r.finishRegister t).phase.owner = some u ∨ r.phase.owner = some u) :
    r.finishRegister t = r := by
  unfold Live.finishRegister at h ⊢
  split
  · rename_i hr
    rw [if_pos hr, hr] at h
    rcases h with h | h
    · cases h
    · exact absurd (Option.some.inj h).symm hut
  · rfl

omit [DecidableEq T] in
/-- A change of phase that only touches the segments of `t` and idle ones. -/
theorem mem_map_iff_of_owner {f : Live T → Live T} {l : List (Live T)}
    (hf : ∀ r : Live T, (f r).phase.owner = some u ∨ r.phase.owner = some u → f r = r)
    (hr : r.phase.owner = some u) : r ∈ l.map f ↔ r ∈ l := by
  constructor
  · intro h
    obtain ⟨r', hr', rfl⟩ := List.mem_map.mp h
    rw [hf r' (.inl hr)]
    exact hr'
  · intro h
    exact List.mem_map.mpr ⟨r, h, hf r (.inr hr)⟩

omit [DecidableEq T] in
/-- Segments whose pages have been cleared leave the list. -/
theorem RegistryInv.remove (h : RegistryInv cfg m) {keep : Live T → Bool}
    (hcleared : ∀ r ∈ m.live, keep r = false → ∀ p, HasPage cfg r.base r.size p →
      leafValue cfg m p = 0) : RegistryInv cfg { m with live := m.live.filter keep } := by
  have hsub : ∀ {r}, r ∈ m.live.filter keep → r ∈ m.live := fun hr => (List.mem_filter.mp hr).1
  refine ⟨h.heap.congr rfl rfl, fun p hp hne => ?_, fun r hr => h.live r (hsub hr),
    fun r hr r' hr' => h.disjoint r (hsub hr) r' (hsub hr'), h.cache,
    fun r hr => h.fits r (hsub hr), fun r hr => h.reading r (hsub hr)⟩
  obtain ⟨r, hr, hpage, hvalue⟩ := h.leaf p hp hne
  refine ⟨r, List.mem_filter.mpr ⟨hr, ?_⟩, hpage, hvalue⟩
  by_contra hkeep
  exact hne (hcleared r hr (by simpa using hkeep) p hpage)

theorem RegistryInv.clearReading (h : RegistryInv cfg m) :
    RegistryInv cfg (m.setReading t none) :=
  h.setReading fun _ _ _ _ hread => by
    rw [Memory.setReading_reading_self] at hread
    cases hread

/-! ## 2. The proof outline -/

/-- What an operation has achieved when it returns. -/
def RegistryPost (cfg : Config) (t : T) (op : RegistryOp) (_ : Word) (m : Memory T) : Prop :=
  match op with
  | .registerSegment seg base size => Owns t ⟨seg, base, size, .registering t⟩ m ∧ Warm cfg m t
  | .unregisterSegment seg => ∃ base size, Owns t ⟨seg, base, size, .unregistering t⟩ m ∧
      ∀ p, HasPage cfg base size p → leafValue cfg m p = 0
  | .find _ => ∀ r ∈ m.live, r.phase.owner ≠ some t

omit [DecidableEq T] in
theorem enter_registerSegment (h : RegistryInv cfg m) (hrest : Resting t m)
    (hcall : FittingCall cfg m t (.registerSegment seg base size))
    (hreg : Registrable cfg m seg base size) :
    RegistryInv cfg (m.addSegment t seg base size) ∧
      (∀ u, t ≠ u → RegistryRely cfg u m (m.addSegment t seg base size)) ∧
      Owns t ⟨seg, base, size, .registering t⟩ (m.addSegment t seg base size) := by
  refine ⟨h.addSegment hrest hreg hcall.1 hcall.2, fun u htu => registryRely_live _ fun r hr => ?_,
    List.mem_cons_self, fun r hr ho => ?_⟩
  · refine ⟨fun hmem => ?_, List.mem_cons_of_mem _⟩
    rcases List.mem_cons.mp hmem with rfl | hmem
    · exact absurd (Option.some.inj hr) htu
    · exact hmem
  · rcases List.mem_cons.mp hr with rfl | hr
    · rfl
    · exact absurd ho (hrest.1 r hr)

theorem enter_unregisterSegment (h : RegistryInv cfg m) (hrest : Resting t m)
    (hlive : ∃ r ∈ m.live, r.seg = seg ∧ r.phase = .registered) :
    let m' := { m with live := m.live.map (Live.startUnregister t seg) }
    RegistryInv cfg m' ∧ (∀ u, t ≠ u → RegistryRely cfg u m m') ∧
      ∃ base size, Owns t ⟨seg, base, size, .unregistering t⟩ m' := by
  obtain ⟨r₀, hr₀, rfl, hphase₀⟩ := hlive
  refine ⟨h.rephase (fun r => ?_) fun r hr u hu => h.fits r hr u fun hphase => hu ?_,
    fun u htu => registryRely_live m.object fun r hr =>
      mem_map_iff_of_owner (fun _ => startUnregister_owner (Ne.symm htu)) hr,
    r₀.base, r₀.size, ?_, fun r' hr' ho => ?_⟩
  · unfold Live.startUnregister
    split <;> exact ⟨rfl, rfl, rfl⟩
  · rw [Live.startUnregister, if_neg (by simp [hphase]), hphase]
  · exact List.mem_map.mpr ⟨r₀, hr₀, if_pos ⟨rfl, hphase₀⟩⟩
  · obtain ⟨r, hr, rfl⟩ := List.mem_map.mp hr'
    unfold Live.startUnregister at ho ⊢
    split
    · -- the object of both segments states the same bounds
      rename_i hchanged
      have hobject := (h.live r hr).2.2
      rw [hchanged.1, (h.live r₀ hr₀).2.2] at hobject
      obtain ⟨hb, hz⟩ := Prod.mk.inj hobject
      rw [hchanged.1, ← hb, ← hz]
    · rename_i hsame
      rw [if_neg hsame] at ho
      exact absurd ho (hrest.1 r hr)

theorem leave_registerSegment (h : RegistryInv cfg m)
    (hown : Owns t ⟨seg, base, size, .registering t⟩ m) (hwarm : Warm cfg m t) :
    let m' := { m with live := m.live.map (Live.finishRegister t) }.setReading t none
    RegistryInv cfg m' ∧ (∀ u, t ≠ u → RegistryRely cfg u m m') ∧ Resting t m' := by
  refine ⟨RegistryInv.clearReading (h.rephase (fun r => ?_) fun r hr u hu => ?_),
    fun u htu => RegistryRely.trans (registryRely_live m.object fun r hr =>
      mem_map_iff_of_owner (fun _ => finishRegister_owner (Ne.symm htu)) hr)
      (registryRely_setReading (Ne.symm htu)),
    fun r' hr' ho => ?_, Memory.setReading_reading_self⟩
  · unfold Live.finishRegister
    split <;> exact ⟨rfl, rfl, rfl⟩
  · by_cases hphase : r.phase = .registering t
    · by_cases hut : u = t
      · subst hut
        exact hwarm r hr (by rw [hphase]; rfl)
      · refine h.fits r hr u fun hu' => hut ?_
        rw [hphase] at hu'
        exact (Phase.registering.inj hu').symm
    · rw [Live.finishRegister, if_neg hphase] at hu
      exact h.fits r hr u hu
  · obtain ⟨r, hr, rfl⟩ := List.mem_map.mp hr'
    by_cases hphase : r.phase = .registering t
    · rw [Live.finishRegister, if_pos hphase] at ho
      cases ho
    · rw [Live.finishRegister, if_neg hphase] at ho
      exact hphase (by rw [hown.2 r hr ho])

theorem leave_unregisterSegment (h : RegistryInv cfg m)
    (hown : Owns t ⟨seg, base, size, .unregistering t⟩ m)
    (hcleared : ∀ p, HasPage cfg base size p → leafValue cfg m p = 0) :
    let m' := { m with
      live := m.live.filter fun r => decide (r.phase ≠ Phase.unregistering t) }.setReading t none
    RegistryInv cfg m' ∧ (∀ u, t ≠ u → RegistryRely cfg u m m') ∧ Resting t m' := by
  refine ⟨RegistryInv.clearReading (h.remove fun r hr hkeep p hp => ?_),
    fun u htu => RegistryRely.trans (registryRely_live m.object fun r hr => ?_)
      (registryRely_setReading (Ne.symm htu)),
    fun r hr ho => ?_, Memory.setReading_reading_self⟩
  · have hphase : r.phase = .unregistering t := by simpa using hkeep
    rw [hown.2 r hr (by rw [hphase]; rfl)] at hp
    exact hcleared p hp
  · refine ⟨fun hmem => (List.mem_filter.mp hmem).1, fun hmem => List.mem_filter.mpr ⟨hmem, ?_⟩⟩
    refine decide_eq_true fun hphase => htu ?_
    rw [hphase] at hr
    exact Option.some.inj hr
  · obtain ⟨hmem, hkeep⟩ := List.mem_filter.mp hr
    exact of_decide_eq_true hkeep (by rw [hown.2 r hmem ho])

/-- Every operation whose calls fit has a proof outline. -/
theorem registryOutline (T : Type) [DecidableEq T] (cfg : Config) :
    Outline (registrySystem (T := T) cfg) (registryDiscipline T cfg) (FittingCall cfg) Resting
      (RegistryPost cfg) where
  compat hut _ _ hg := hg _ (Ne.symm hut)
  rest {t _ _} hR hi h :=
    (registryContext_discipline cfg t (.find 0)).stable_resting (by exact hR) hi h
  enter {t op m m'} hi hrest hcall henter := by
    have hΓ := registryContext_discipline cfg t op
    cases op with
    | registerSegment seg base size =>
      simp only [registrySystem] at henter
      split at henter
      · rename_i hreg
        obtain rfl := Option.some.inj henter
        obtain ⟨hinv, hrely, hown⟩ := enter_registerSegment hi hrest hcall hreg
        refine ⟨hinv, hrely, wp_bind (wp_mono (wp_registerSegment hΓ rfl hreg.2.1 hown) ?_)⟩
        exact fun _ m _ h => wp_ret (P := fun m => Owns t _ m ∧ Warm cfg m t)
          (fun hR hi h => ⟨hΓ.stable_owns rfl hR hi h.1, (hΓ.rely hR).warm h.2⟩) h
          fun _ _ h => h
      · cases henter
    | unregisterSegment seg =>
      simp only [registrySystem] at henter
      split at henter
      · obtain rfl := Option.some.inj henter
        obtain ⟨hinv, hrely, base, size, hown⟩ := enter_unregisterSegment hi hrest ‹_›
        refine ⟨hinv, hrely, wp_bind (wp_mono (wp_unregisterSegment hΓ rfl hown) ?_)⟩
        refine fun _ m _ h => wp_ret (P := fun m => Owns t ⟨seg, base, size, .unregistering t⟩ m ∧
          ∀ p, HasPage cfg base size p → leafValue cfg m p = 0) (fun hR hi h =>
            ⟨hΓ.stable_owns rfl hR hi h.1, fun p hp =>
              ((hΓ.rely hR).pages _ h.1.1 rfl p hp).trans (h.2 p hp)⟩) h ?_
        exact fun _ _ h => ⟨base, size, h⟩
      · cases henter
    | find addr =>
      obtain rfl := Option.some.inj henter
      refine ⟨hi, fun u _ => RegistryRely.refl cfg u _, wp_find hΓ hcall ?_ (fun _ _ _ h => h)
        (fun _ _ _ h => h) (fun _ _ h => h.1) (fun _ _ h _ _ _ => h.1) hrest⟩
      exact fun _ _ _ hR _ h r hr ho => h r (((hΓ.rely hR).own r ho).mp hr) ho
  leave {t op a m} hi hpost := by
    cases op with
    | registerSegment seg base size => exact leave_registerSegment hi hpost.1 hpost.2
    | unregisterSegment seg =>
      obtain ⟨base, size, hown, hcleared⟩ := hpost
      exact leave_unregisterSegment hi hown hcleared
    | find addr =>
      exact ⟨RegistryInv.clearReading hi, fun u htu => registryRely_setReading (Ne.symm htu),
        hpost, Memory.setReading_reading_self⟩

/-! ## 3. Results -/

section results

variable {p p₀ p₁ p₂ : RegistryPool T} {l : PoolLabel T RegistryOp Word} {s : Word}

omit [DecidableEq T] in
theorem registryInv_initial : RegistryInv cfg (initialMemory T cfg) := by
  refine ⟨heapInv_initial, fun p _ hne => absurd ?_ hne, fun _ hr => absurd hr List.not_mem_nil,
    fun _ hr => absurd hr List.not_mem_nil, fun t e he => ?_,
    fun _ hr => absurd hr List.not_mem_nil, fun _ hr => absurd hr List.not_mem_nil⟩
  · unfold leafValue
    split <;> rfl
  · rw [List.eq_of_mem_replicate he]
    exact ⟨rfl, fun s hs => (by cases hs)⟩

/-- The thread is inside `register_segment` or `unregister_segment`. -/
def updating : Option (RegistryOp × TrieProg Word) → Bool
  | some (.registerSegment _ _ _, _) | some (.unregisterSegment _, _) => true
  | some (.find _, _) | none => false

/-- No register or unregister is in progress. -/
def Quiet (p : RegistryPool T) : Prop := ∀ u, updating (p.running u) = false

/-- Every call fits. -/
def Fitting (cfg : Config) (p : RegistryPool T) (l : PoolLabel T RegistryOp Word) : Prop :=
  l.OnCall (FittingCall cfg) p.shared

/-- The steps of a run during which `t` does not return and nothing is
    registered or unregistered. -/
def DuringFind (t : T) (p : RegistryPool T) (l : PoolLabel T RegistryOp Word) : Prop :=
  Quiet p ∧ l ≠ .ret t

abbrev RegistryGood (cfg : Config) : RegistryPool T → Prop :=
  Outline.Good (registrySystem cfg) (registryDiscipline T cfg) Resting (RegistryPost cfg)

theorem exec_live (a : Act) (c : Word) : (exec t a c m).2.live = m.live := by
  cases a <;> simp only [exec] <;> (try split) <;> rfl

/-- A thread inside `find` owns no segment. -/
def FindersOwnNothing (p : RegistryPool T) : Prop :=
  ∀ u addr prog, p.running u = some (.find addr, prog) →
    ∀ r ∈ p.shared.live, r.phase.owner ≠ some u

theorem findersOwnNothing_step (hgood : RegistryGood cfg p) (h : FindersOwnNothing p)
    (hC : Fitting cfg p l) (hs : p.step (registrySystem cfg) l = some p₁) :
    FindersOwnNothing p₁ := by
  intro u addr prog hu r hr
  by_cases hl : l.thread = u
  · subst hl
    obtain ⟨t, op, m, rfl, hidle, henter, rfl⟩ | ⟨t, c, op, a, k, rfl, hrun, rfl⟩ |
      ⟨t, op, a, rfl, hrun, rfl⟩ := Pool.step_cases _ hs
    · simp only [PoolLabel.thread, Function.update_self, Option.some.injEq, Prod.mk.injEq] at hu
      obtain ⟨rfl, -⟩ := hu
      obtain rfl := Option.some.inj henter
      have hrest := hgood.2 t
      rw [hidle] at hrest
      exact hrest.1 r hr
    · simp only [PoolLabel.thread, Function.update_self, Option.some.injEq, Prod.mk.injEq] at hu
      obtain ⟨rfl, -⟩ := hu
      have hlive : r ∈ (exec t a c p.shared).2.live := hr
      rw [exec_live] at hlive
      exact h t addr _ hrun r hlive
    · simp [PoolLabel.thread] at hu
  · have hrely := ((registryOutline T cfg).good_step hgood hC hs).2 u hl
    rw [Pool.running_of_step _ hs hl] at hu
    intro ho
    exact h u addr prog hu r ((hrely.own r ho).mp hr) ho

/-- With no register or unregister in progress every live segment is
    registered. -/
theorem registered_of_quiet (hgood : RegistryGood cfg p) (h : FindersOwnNothing p)
    (hquiet : Quiet p) (hr : r ∈ p.shared.live) : r.phase = .registered := by
  have hnone : ∀ u, r.phase.owner ≠ some u := by
    intro u
    have hthread := hgood.2 u
    have hq := hquiet u
    cases hrun : p.running u with
    | none =>
      rw [hrun] at hthread
      exact hthread.1 r hr
    | some x =>
      obtain ⟨op, prog⟩ := x
      rw [hrun] at hq
      cases op with
      | find addr => exact h u addr prog hrun r hr
      | registerSegment _ _ _ => cases hq
      | unregisterSegment _ => cases hq
  cases hphase : r.phase with
  | registered => rfl
  | registering u => exact absurd (by rw [hphase]; rfl) (hnone u)
  | unregistering u => exact absurd (by rw [hphase]; rfl) (hnone u)

/-- A step between two quiet states leaves the list of live segments alone. -/
theorem live_of_quiet_step (hquiet : Quiet p) (hquiet₁ : Quiet p₁)
    (hs : p.step (registrySystem cfg) l = some p₁) : p₁.shared.live = p.shared.live := by
  obtain ⟨t, op, m, rfl, -, henter, rfl⟩ | ⟨t, c, op, a, k, rfl, -, rfl⟩ |
    ⟨t, op, a, rfl, hrun, rfl⟩ := Pool.step_cases _ hs
  · have hq := hquiet₁ t
    simp only [Function.update_self] at hq
    cases op with
    | find addr => exact congrArg Memory.live (Option.some.inj henter).symm
    | registerSegment _ _ _ => cases hq
    | unregisterSegment _ => cases hq
  · exact exec_live a c
  · have hq := hquiet t
    rw [hrun] at hq
    cases op with
    | find addr => rfl
    | registerSegment _ _ _ => cases hq
    | unregisterSegment _ => cases hq

/-- What a finder may rely on while nothing is registered or unregistered. -/
def quietContext (cfg : Config) (t : T) : Context (Memory T) where
  Inv := RegistryInv cfg
  Rely m m' := RegistryRely cfg t m m' ∧ m'.live = m.live
  Guar m m' := ∀ u, u ≠ t → RegistryRely cfg u m m'
  rely_refl m := ⟨RegistryRely.refl cfg t m, rfl⟩
  rely_trans h h' := ⟨h.1.trans h'.1, h'.2.trans h.2⟩

/-- Any number of threads, any interleaving, objects and pages used again: while
    the calls fit, what `find` returns is registered and owns the page. -/
theorem find_sound
    (hreach : Steps (Pool.step (registrySystem cfg)) (Fitting cfg)
      (Pool.idle (initialMemory T cfg)) p₀)
    (hfits : FittingCall cfg p₀.shared t (.find addr))
    (hcall : p₀.step (registrySystem cfg) (.call t (.find addr)) = some p₁)
    (hrun : Steps (Pool.step (registrySystem cfg))
      (fun p l => Fitting cfg p l ∧ DuringFind t p l) p₁ p₂)
    (hend : Quiet p₂) (hret : p₂.running t = some (.find addr, .ret s)) (hs : s ≠ 0) :
    ∃ r ∈ p₂.shared.live, r.seg = s ∧ r.phase = .registered ∧
      HasPage cfg r.base r.size (pageOf cfg addr) := by
  have hO := registryOutline T cfg
  have hgood : ∀ {p}, Steps (Pool.step (registrySystem cfg)) (Fitting cfg)
      (Pool.idle (initialMemory T cfg)) p → RegistryGood cfg p ∧ FindersOwnNothing p := by
    intro p hp
    refine hp.invariant (fun p => RegistryGood cfg p ∧ FindersOwnNothing p)
      ⟨Outline.good_idle registryInv_initial fun t => ⟨fun r hr => absurd hr List.not_mem_nil, rfl⟩,
        fun u addr prog hu => (by cases hu)⟩ fun p l p' hg hC hs =>
      ⟨(hO.good_step hg.1 hC hs).1, findersOwnNothing_step hg.1 hg.2 hC hs⟩
  have hC : Fitting cfg p₀ (.call t (.find addr)) := hfits
  have hreach₁ := hreach.tail hC hcall
  have hgood₂ := hgood (hreach₁.trans (hrun.mono fun _ _ h => h.1))
  -- the call changes nothing but starts the program
  obtain ⟨hidle, rfl⟩ : p₀.running t = none ∧ p₁ = ⟨p₀.shared,
      Function.update p₀.running t (some (.find addr, find cfg addr))⟩ := by
    obtain ⟨_, hidle, henter, rfl⟩ := Pool.step_call _ hcall
    cases henter
    exact ⟨hidle, rfl⟩
  have hrest := (hgood hreach).1.2 t
  rw [hidle] at hrest
  have hΓ : RegistryContext cfg t (quietContext cfg t) := ⟨Iff.rfl, fun h => h, fun h => h.1⟩
  obtain ⟨prog, hprog, hwp⟩ := hO.observe (.find addr) (quietContext cfg t) (K := Quiet)
    (Q := fun s m => s ≠ 0 → ∃ r ∈ m.live, r.seg = s ∧ HasPage cfg r.base r.size (pageOf cfg addr))
    (fun p hg _ => hg.1)
    (fun p l p' hg _ hK hK' hC hs hl =>
      ⟨(hO.good_step hg hC hs).2 t hl, live_of_quiet_step hK hK' hs⟩)
    (hgood hreach₁).1
    (fun _ => ⟨_, Function.update_self .., wp_find hΓ hfits
      (fun v _ _ hR _ h hv => by rw [hR.2]; exact h hv) (fun _ _ _ h => h) (fun _ _ _ h => h)
      (fun _ _ _ h => absurd rfl h) (fun m _ _ r hr hpage _ => ⟨r, hr, rfl, hpage⟩) hrest⟩)
    (hrun.mono fun _ _ h => ⟨h.1, h.2.1, h.2.2⟩) hend
  obtain rfl : prog = .ret s := (Prod.mk.inj (Option.some.inj (hprog.symm.trans hret))).2
  obtain ⟨r, hr, hseg, hpage⟩ := hwp _ ((quietContext cfg t).rely_refl _) hgood₂.1.1 hs
  exact ⟨r, hr, hseg, registered_of_quiet hgood₂.1 hgood₂.2 hend hr, hpage⟩

end results

/-! ## 4. A find that is right, and one that is not -/

/-- No other thread has an entry for the object, or is reading its bounds. -/
def Unremembered (m : Memory T) (t : T) (seg : Word) : Prop :=
  ∀ u, u ≠ t → (∀ e ∈ m.cache u, e.seg ≠ seg) ∧ (m.reading u).map Prod.fst ≠ some seg

/-- Every segment is registered at an object that the others do not remember. -/
def FreshCall (cfg : Config) (m : Memory T) (t : T) : RegistryOp → Prop
  | .registerSegment seg base size => InKeySpace cfg base size ∧ Unremembered m t seg
  | .unregisterSegment _ => True
  | .find addr => (pageOf cfg addr).toNat < keyBound cfg

omit [DecidableEq T] in
theorem FreshCall.fits {op : RegistryOp} (h : FreshCall cfg m t op) : FittingCall cfg m t op := by
  cases op with
  | registerSegment seg base size =>
    refine ⟨h.1, fun u hut => ⟨fun e he hseg => absurd hseg ((h.2 u hut).1 e he), ?_⟩⟩
    intro b z hread
    exact absurd (by rw [hread]; rfl) (h.2 u hut).2
  | unregisterSegment seg => trivial
  | find addr => exact h

instance (m : Memory Bool) (t : Bool) (seg : Word) : Decidable (Unremembered m t seg) :=
  inferInstanceAs (Decidable (∀ _, _))

instance (m : Memory Bool) (t : Bool) (op : RegistryOp) : Decidable (FreshCall cfg m t op) :=
  match op with
  | .registerSegment _ _ _ => inferInstanceAs (Decidable (_ ∧ _))
  | .unregisterSegment _ => .isTrue trivial
  | .find _ => inferInstanceAs (Decidable (_ < _))

instance (p : RegistryPool Bool) : Decidable (Quiet p) := inferInstanceAs (Decidable (∀ _, _))

instance (t : Bool) (p : RegistryPool Bool) (l : PoolLabel Bool RegistryOp Word) :
    Decidable (DuringFind t p l) :=
  inferInstanceAs (Decidable (_ ∧ _))

/-- Register three pages at `0x100000` in the empty registry. -/
def registerFirst : List (PoolLabel Bool RegistryOp Word) :=
  PoolLabel.alone false (.registerSegment 0x5000 0x100000 0x3000)
    ([0, 0, 0, 0x2000, 0, 0, 0x3000, 0, 0, 0x4000, 0, 0] ++ List.replicate 20 0)

/-- The schedule under `C` reaches a call of `find addr` by thread `true`, which
    then takes `n` steps under `D`, nothing being registered or unregistered, and
    is about to return the object `0x5000`. -/
def Finds (C D : RegistryPool Bool → PoolLabel Bool RegistryOp Word → Prop)
    [∀ p l, Decidable (C p l)] [∀ p l, Decidable (D p l)]
    (before : List (PoolLabel Bool RegistryOp Word)) (addr : Word) (n : Nat)
    (test : Memory Bool → Bool) : Bool :=
  Steps.Watch (Pool.step (registrySystem defaultConfig)) C D
    (Pool.idle (initialMemory Bool defaultConfig)) before (.call true (.find addr))
    (List.replicate n (.act true 0)) fun p₂ =>
  decide (Quiet p₂ ∧ p₂.returned true = some (.find addr, 0x5000)) && test p₂.shared

/-- A page of a segment that is found through the widened entry of another one. -/
theorem find_sound_widened :
    ∃ p₂ : RegistryPool Bool, p₂.running true = some (.find 0x102000, .ret 0x5000) ∧
      ∃ r ∈ p₂.shared.live, r.seg = 0x5000 ∧ r.phase = .registered ∧
        HasPage defaultConfig r.base r.size 0x102 := by
  have hrun : Finds (fun p l => l.OnCall (FreshCall defaultConfig) p.shared)
      (fun p l => l.OnCall (FreshCall defaultConfig) p.shared ∧ DuringFind true p l)
      (registerFirst ++ PoolLabel.alone true (.find 0x100000) (List.replicate 10 0)) 0x102000 7
      (fun _ => true) = true := by decide +kernel
  obtain ⟨p₀, p₁, p₂, hreach, hcall, hwindow, hend⟩ := Steps.of_watch hrun
  obtain ⟨hend, hret⟩ := of_decide_eq_true (Bool.and_eq_true_iff.mp hend).1
  have hfits : ∀ (p : RegistryPool Bool) (l : PoolLabel Bool RegistryOp Word),
      l.OnCall (FreshCall defaultConfig) p.shared → Fitting defaultConfig p l := by
    intro p l h
    cases l with
    | call t op => exact FreshCall.fits h
    | act t c => trivial
    | ret t => trivial
  have haddr : (pageOf defaultConfig 0x102000).toNat < keyBound defaultConfig := by decide
  exact ⟨p₂, Pool.returned_eq_some hret, find_sound (hreach.mono hfits) haddr hcall
    (hwindow.mono fun p l h => ⟨hfits p l h.1, h.2⟩) hend (Pool.returned_eq_some hret) (by decide)⟩

/-- After a thread has found the segment, another one unregisters it and
    registers a smaller one with the same object at the same base. -/
theorem widened_entry_unsound :
    ¬ ∀ (t : Bool) (addr s : Word) (p₀ p₁ p₂ : RegistryPool Bool),
      Steps (Pool.step (registrySystem defaultConfig)) anyStep
        (Pool.idle (initialMemory Bool defaultConfig)) p₀ →
      p₀.step (registrySystem defaultConfig) (.call t (.find addr)) = some p₁ →
      Steps (Pool.step (registrySystem defaultConfig)) (DuringFind t) p₁ p₂ →
      Quiet p₂ → p₂.running t = some (.find addr, .ret s) → s ≠ 0 →
      ∃ r ∈ p₂.shared.live, r.seg = s ∧ r.phase = .registered ∧
        HasPage defaultConfig r.base r.size (pageOf defaultConfig addr) := by
  intro hall
  have hrun : Finds anyStep (DuringFind true)
      (registerFirst ++ PoolLabel.alone true (.find 0x100000) (List.replicate 10 0) ++
        PoolLabel.alone false (.unregisterSegment 0x5000) (List.replicate 16 0) ++
        PoolLabel.alone false (.registerSegment 0x5000 0x100000 0x1000) (List.replicate 18 0))
      0x102000 7
      (fun m => decide (∀ r ∈ m.live, ¬ HasPage defaultConfig r.base r.size 0x102)) = true := by
    decide +kernel
  obtain ⟨p₀, p₁, p₂, hreach, hcall, hwindow, hend⟩ := Steps.of_watch hrun
  obtain ⟨hend, hnone⟩ := Bool.and_eq_true_iff.mp hend
  obtain ⟨hend, hret⟩ := of_decide_eq_true hend
  obtain ⟨r, hr, -, -, hpage⟩ := hall true 0x102000 0x5000 p₀ p₁ p₂ hreach hcall hwindow hend
    (Pool.returned_eq_some hret) (by decide)
  exact of_decide_eq_true hnone r hr hpage

end Memnon.Trie
