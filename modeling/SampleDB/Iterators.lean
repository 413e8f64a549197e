import Mathlib.Data.List.ProdSigma

/-!
Iterators: states that go on to a next element or say that there is none, and that can be reset.
An iterator is a source of a list when every reset, at whatever state, makes it go through the
list from the front. The nested loop over two iterators resets the second one for each element of
the first one, which is one element ahead.
-/
namespace SampleDB.Iterators

/-- What the calls do, as relations, and the element that a state is on. -/
structure Iterator (σ ρ : Type) where
  next : σ → Bool → σ → Prop
  reset : σ → σ → Prop
  shows : σ → ρ → Prop

namespace Iterator

variable {σ ρ : Type} (it : Iterator σ ρ) (I : σ → Prop)

/-- From a state the iterator goes through this list, in states of `I`, and then stops. -/
def Emits : σ → List ρ → Prop
  | s, [] => ∃ s', it.next s false s' ∧ I s'
  | s, r :: rs => ∃ s', it.next s true s' ∧ I s' ∧ it.shows s' r ∧ Emits s' rs

/-- In the states of `I` the iterator starts over with the list. -/
def Repeats (rows : List ρ) : Prop :=
  ∀ s, I s → ∃ s', it.reset s s' ∧ I s' ∧ it.Emits I s' rows

/-- In the states of `I` the iterator always answers. -/
def Total : Prop := ∀ s, I s → ∃ found s', it.next s found s' ∧ I s'

/-- From the states of `I` the iterator comes to its end through elements of `Q`. -/
def Ends (Q : ρ → Prop) : Prop := ∀ s, I s → ∃ rows, it.Emits I s rows ∧ ∀ r ∈ rows, Q r

/-- In the states of `I` the iterator always answers, and starts over with the list. -/
structure Source (rows : List ρ) : Prop where
  total : ∀ s, I s → ∃ found s', it.next s found s' ∧ I s'
  restarts : ∀ s, I s → ∃ s', it.reset s s' ∧ I s' ∧ it.Emits I s' rows

variable {it I}

/-- Where the calls are functions, the list is fixed by the state. -/
theorem Emits.unique (hnext : ∀ s found s₁ found' s₂, it.next s found s₁ → it.next s found' s₂ →
      found = found' ∧ s₁ = s₂) (hshows : ∀ s r r', it.shows s r → it.shows s r' → r = r')
    {J : σ → Prop} {s : σ} {rows rows' : List ρ} (h : it.Emits I s rows) (h' : it.Emits J s rows') :
    rows = rows' := by
  induction rows generalizing s rows' with
  | nil =>
    obtain ⟨s₁, hfirst, -⟩ := h
    cases rows' with
    | nil => rfl
    | cons r' rows' =>
      obtain ⟨s₂, hfirst', -⟩ := h'
      cases (hnext s _ _ _ _ hfirst hfirst').1
  | cons r rows ih =>
    obtain ⟨s₁, hfirst, -, hr, hrest⟩ := h
    cases rows' with
    | nil =>
      obtain ⟨s₂, hfirst', -⟩ := h'
      cases (hnext s _ _ _ _ hfirst hfirst').1
    | cons r' rows' =>
      obtain ⟨s₂, hfirst', -, hr', hrest'⟩ := h'
      obtain ⟨-, rfl⟩ := hnext s _ _ _ _ hfirst hfirst'
      rw [hshows s₁ r r' hr hr', ih hrest hrest']

theorem Ends.total {Q : ρ → Prop} (h : it.Ends I Q) : it.Total I := by
  intro s hs
  obtain ⟨rows, hemits, -⟩ := h s hs
  cases rows with
  | nil =>
    obtain ⟨s', hnext, hs'⟩ := hemits
    exact ⟨false, s', hnext, hs'⟩
  | cons r rows =>
    obtain ⟨s', hnext, hs', -⟩ := hemits
    exact ⟨true, s', hnext, hs'⟩

/-- What every call keeps holds in all states that a list is gone through in. -/
theorem Emits.keeps {J : σ → Prop} (hJ : ∀ s found s', J s → it.next s found s' → J s') {s : σ}
    {rows : List ρ} (hs : J s) (h : it.Emits I s rows) : it.Emits J s rows := by
  induction rows generalizing s with
  | nil =>
    obtain ⟨s', hnext, -⟩ := h
    exact ⟨s', hnext, hJ s false s' hs hnext⟩
  | cons r rows ih =>
    obtain ⟨s', hnext, -, hr, hrest⟩ := h
    have hs' := hJ s true s' hs hnext
    exact ⟨s', hnext, hs', hr, ih hs' hrest⟩

section Passes

variable (it)

/-- From a state the iterator goes through these states, and then answers in another one that there
is no element. -/
inductive Passes : σ → List σ → σ → Prop
  | done {s s' : σ} (h : it.next s false s') : Passes s [] s'
  | more {s s₁ s' : σ} {xs : List σ} (h : it.next s true s₁) (hrest : Passes s₁ xs s') :
      Passes s (s₁ :: xs) s'

/-- In the states of `I` the iterator can be reset, and comes to its end through states of `A`. -/
structure Walks (I A : σ → Prop) : Prop where
  resets : ∀ s, I s → ∃ s', it.reset s s' ∧ I s'
  passes : ∀ s, I s → ∃ xs s', it.Passes s xs s' ∧ (∀ x ∈ xs, I x ∧ A x) ∧ I s'

/-- From a state the next so many answers all are that there is no element. -/
def Silent : ℕ → σ → Prop
  | 0, _ => True
  | k + 1, s => ∃ s', it.next s false s' ∧ Silent k s'

variable {it} {A : σ → Prop} {s s' : σ} {xs : List σ}

theorem silent_of_invariant (J : σ → Prop) (hstep : ∀ s, J s → ∃ s', it.next s false s' ∧ J s')
    (hs : J s) (k : ℕ) : it.Silent k s := by
  induction k generalizing s with
  | zero => trivial
  | succ k ih =>
    obtain ⟨s', hnext, hs'⟩ := hstep s hs
    exact ⟨s', hnext, ih hs'⟩

/-- The first answer of a pass. -/
theorem Walks.answers (h : it.Walks I A) (hs : I s) :
    (∃ s', it.next s true s' ∧ I s' ∧ A s') ∨ ∃ s', it.next s false s' ∧ I s' := by
  obtain ⟨xs, s', hpass, hxs, hs'⟩ := h.passes s hs
  cases hpass with
  | done hnext => exact Or.inr ⟨s', hnext, hs'⟩
  | more hnext hrest =>
    obtain ⟨hone, -⟩ := List.forall_mem_cons.mp hxs
    exact Or.inl ⟨_, hnext, hone⟩

/-- Without states of `A` the iterator has no elements. -/
theorem Walks.no_more (h : it.Walks I A) (hempty : ∀ x, I x → ¬ A x) (hs : I s) :
    ∃ s', it.next s false s' ∧ I s' := by
  obtain ⟨s', -, hs', ha⟩ | hnone := h.answers hs
  · exact absurd ha (hempty s' hs')
  · exact hnone

end Passes

section Filters

variable (it) (sat : σ → Bool → Prop)

/-- The iterator goes on until an element is accepted. -/
inductive FilterNext : σ → Bool → σ → Prop
  | done {s s' : σ} (h : it.next s false s') : FilterNext s false s'
  | keep {s s' : σ} (h : it.next s true s') (hsat : sat s' true) : FilterNext s true s'
  | skip {s s₁ s' : σ} {found : Bool} (h : it.next s true s₁) (hsat : sat s₁ false)
      (hrest : FilterNext s₁ found s') : FilterNext s found s'

def filter : Iterator σ ρ where
  next := FilterNext it sat
  reset := it.reset
  shows := it.shows

variable {it sat} {A : σ → Prop} {s s' : σ} {xs : List σ}

/-- An element that is not accepted is gone over. -/
theorem Emits.skip {s₁ : σ} {rows : List ρ} (h : it.next s true s₁) (hsat : sat s₁ false)
    (hrest : (it.filter sat).Emits I s₁ rows) : (it.filter sat).Emits I s rows := by
  cases rows with
  | nil =>
    obtain ⟨s', hnext, hs'⟩ := hrest
    exact ⟨s', .skip h hsat hnext, hs'⟩
  | cons r rows =>
    obtain ⟨s', hnext, hrest⟩ := hrest
    exact ⟨s', .skip h hsat hnext, hrest⟩

/-- Where it is decided by the element whether a state is accepted, a filter goes through the
elements that are. -/
theorem Emits.filter {p : ρ → Bool} {rows : List ρ}
    (hsat : ∀ s, ∀ r ∈ rows, it.shows s r → sat s (p r)) (h : it.Emits I s rows) :
    (it.filter sat).Emits I s (rows.filter p) := by
  induction rows generalizing s with
  | nil =>
    obtain ⟨s', hnext, hs'⟩ := h
    exact ⟨s', .done hnext, hs'⟩
  | cons r rows ih =>
    obtain ⟨s', hnext, hs', hr, hrest⟩ := h
    have hdecided := hsat s' r List.mem_cons_self hr
    have htail := ih (fun s r hmem => hsat s r (List.mem_cons_of_mem _ hmem)) hrest
    rw [List.filter_cons]
    cases hp : p r with
    | true =>
      rw [hp] at hdecided
      exact ⟨s', .keep hnext hdecided, hs', hr, htail⟩
    | false =>
      rw [hp] at hdecided
      exact htail.skip hnext hdecided

theorem Repeats.filter {p : ρ → Bool} {rows : List ρ}
    (hsat : ∀ s, ∀ r ∈ rows, it.shows s r → sat s (p r)) (h : it.Repeats I rows) :
    (it.filter sat).Repeats I (rows.filter p) := by
  intro s hs
  obtain ⟨s', hreset, hs', hemits⟩ := h s hs
  exact ⟨s', hreset, hs', hemits.filter hsat⟩

theorem Ends.filter {p : ρ → Bool} {Q : ρ → Prop}
    (hsat : ∀ s r, Q r → it.shows s r → sat s (p r)) (h : it.Ends I Q) :
    (it.filter sat).Ends I Q := by
  intro s hs
  obtain ⟨rows, hemits, hrows⟩ := h s hs
  refine ⟨rows.filter p, hemits.filter (fun s r hr => hsat s r (hrows r hr)), ?_⟩
  exact fun r hr => hrows r (List.mem_filter.mp hr).1

/-- A filter goes through the states that are accepted. -/
theorem Passes.filter (h : it.Passes s xs s') (hsat : ∀ x ∈ xs, ∃ b, sat x b)
    (hfun : ∀ x, sat x true → ¬ sat x false) :
    ∃ ys, (it.filter sat).Passes s ys s' ∧ ∀ y, y ∈ ys ↔ y ∈ xs ∧ sat y true := by
  induction h with
  | done h =>
    exact ⟨[], .done (.done h), fun y => ⟨fun hy => (nomatch hy), fun hy => (nomatch hy.1)⟩⟩
  | @more s s₁ s' xs h hrest ih =>
    obtain ⟨⟨b, hb⟩, hsat⟩ := List.forall_mem_cons.mp hsat
    obtain ⟨ys, hys, hmem⟩ := ih hsat
    cases b with
    | true =>
      refine ⟨s₁ :: ys, .more (.keep h hb) hys, fun y => ?_⟩
      rw [List.mem_cons, List.mem_cons, hmem]
      constructor
      · rintro (rfl | ⟨hy, hy'⟩)
        · exact ⟨Or.inl rfl, hb⟩
        · exact ⟨Or.inr hy, hy'⟩
      · rintro ⟨rfl | hy, hy'⟩
        · exact Or.inl rfl
        · exact Or.inr ⟨hy, hy'⟩
    | false =>
      have hpass : (it.filter sat).Passes s ys s' := by
        cases hys with
        | done hnext => exact .done (.skip h hb hnext)
        | more hnext hrest => exact .more (.skip h hb hnext) hrest
      refine ⟨ys, hpass, fun y => ?_⟩
      rw [List.mem_cons, hmem]
      constructor
      · exact fun hy => ⟨Or.inr hy.1, hy.2⟩
      · rintro ⟨rfl | hy, hy'⟩
        · exact absurd hb (hfun y hy')
        · exact ⟨hy, hy'⟩

theorem Walks.filter (h : it.Walks I A) (hsat : ∀ x, I x → A x → ∃ b, sat x b)
    (hfun : ∀ x, sat x true → ¬ sat x false) :
    (it.filter sat).Walks I (fun s => A s ∧ sat s true) := by
  refine ⟨h.resets, fun s hs => ?_⟩
  obtain ⟨xs, s', hpass, hxs, hs'⟩ := h.passes s hs
  obtain ⟨ys, hys, hmem⟩ := hpass.filter (fun x hx => hsat x (hxs x hx).1 (hxs x hx).2) hfun
  refine ⟨ys, s', hys, fun y hy => ?_, hs'⟩
  obtain ⟨hy, hy'⟩ := (hmem y).mp hy
  exact ⟨(hxs y hy).1, (hxs y hy).2, hy'⟩

end Filters

section Maps

variable {σ' ρ' : Type} {it' : Iterator σ' ρ'} {f : σ → σ'} {g : ρ → ρ'} {rows : List ρ}

theorem Passes.map (hnext : ∀ s found s', it.next s found s' → it'.next (f s) found (f s'))
    {s s' : σ}
    {xs : List σ} (h : it.Passes s xs s') : it'.Passes (f s) (xs.map f) (f s') := by
  induction h with
  | done h => exact .done (hnext _ _ _ h)
  | more h hrest ih => exact .more (hnext _ _ _ h) ih

theorem Walks.map {A : σ → Prop} {I' A' : σ' → Prop}
    (hnext : ∀ s found s', it.next s found s' → it'.next (f s) found (f s'))
    (hreset : ∀ s s', it.reset s s' → it'.reset (f s) (f s'))
    (hfrom : ∀ x, I' x → ∃ s, x = f s ∧ I s)
    (hto : ∀ s, I s → I' (f s)) (hA : ∀ s, I s → A s → A' (f s)) (h : it.Walks I A) :
    it'.Walks I' A' := by
  constructor
  · intro x hx
    obtain ⟨s, rfl, hs⟩ := hfrom x hx
    obtain ⟨s', hs', hI⟩ := h.resets s hs
    exact ⟨f s', hreset s s' hs', hto s' hI⟩
  · intro x hx
    obtain ⟨s, rfl, hs⟩ := hfrom x hx
    obtain ⟨xs, s', hpass, hxs, hs'⟩ := h.passes s hs
    refine ⟨xs.map f, f s', hpass.map hnext, ?_, hto s' hs'⟩
    intro y hy
    obtain ⟨x, hx, rfl⟩ := List.mem_map.mp hy
    exact ⟨hto x (hxs x hx).1, hA x (hxs x hx).1 (hxs x hx).2⟩

/-- Where the calls of one iterator are calls of another one, so is what it goes through. -/
theorem Emits.mapOn {J : σ' → Prop}
    (hnext : ∀ s found s', it.next s found s' → it'.next (f s) found (f s'))
    (hshows : ∀ s, ∀ r ∈ rows, it.shows s r → it'.shows (f s) (g r)) (hI : ∀ s, I s → J (f s))
    {s : σ} (h : it.Emits I s rows) : it'.Emits J (f s) (rows.map g) := by
  induction rows generalizing s with
  | nil =>
    obtain ⟨s', hfirst, hs'⟩ := h
    exact ⟨f s', hnext s false s' hfirst, hI s' hs'⟩
  | cons r rows ih =>
    obtain ⟨s', hfirst, hs', hr, hrest⟩ := h
    have htail := ih (fun s r hmem => hshows s r (List.mem_cons_of_mem _ hmem)) hrest
    exact ⟨f s', hnext s true s' hfirst, hI s' hs', hshows s' r List.mem_cons_self hr, htail⟩

theorem Emits.map {J : σ' → Prop}
    (hnext : ∀ s found s', it.next s found s' → it'.next (f s) found (f s'))
    (hshows : ∀ s r, it.shows s r → it'.shows (f s) (g r)) (hI : ∀ s, I s → J (f s)) {s : σ}
    (h : it.Emits I s rows) : it'.Emits J (f s) (rows.map g) :=
  h.mapOn hnext (fun s r _ => hshows s r) hI

theorem Repeats.map (hnext : ∀ s found s', it.next s found s' → it'.next (f s) found (f s'))
    (hreset : ∀ s s', it.reset s s' → it'.reset (f s) (f s'))
    (hshows : ∀ s, ∀ r ∈ rows, it.shows s r → it'.shows (f s) (g r)) (h : it.Repeats I rows) :
    it'.Repeats (fun x => ∃ s, x = f s ∧ I s) (rows.map g) := by
  rintro x ⟨s, rfl, hs⟩
  obtain ⟨s', hs', hI', hemits⟩ := h s hs
  exact ⟨f s', hreset s s' hs', ⟨s', rfl, hI'⟩,
    hemits.mapOn hnext hshows (fun s hs => ⟨s, rfl, hs⟩)⟩

theorem Ends.map {Q : ρ → Prop} {Q' : ρ' → Prop}
    (hnext : ∀ s found s', it.next s found s' → it'.next (f s) found (f s'))
    (hshows : ∀ s r, Q r → it.shows s r → it'.shows (f s) (g r)) (hQ : ∀ r, Q r → Q' (g r))
    (h : it.Ends I Q) : it'.Ends (fun x => ∃ s, x = f s ∧ I s) Q' := by
  rintro x ⟨s, rfl, hs⟩
  obtain ⟨rows, hemits, hrows⟩ := h s hs
  refine ⟨rows.map g, hemits.mapOn hnext (fun s r hr => hshows s r (hrows r hr))
    (fun s hs => ⟨s, rfl, hs⟩), ?_⟩
  intro r hr
  obtain ⟨r₀, hr₀, rfl⟩ := List.mem_map.mp hr
  exact hQ r₀ (hrows r₀ hr₀)

theorem Source.map (hnext : ∀ s found s', it.next s found s' → it'.next (f s) found (f s'))
    (hreset : ∀ s s', it.reset s s' → it'.reset (f s) (f s'))
    (hshows : ∀ s r, it.shows s r → it'.shows (f s) (g r)) (h : it.Source I rows) :
    it'.Source (fun x => ∃ s, x = f s ∧ I s) (rows.map g) := by
  have hI : ∀ s, I s → ∃ s', f s = f s' ∧ I s' := fun s hs => ⟨s, rfl, hs⟩
  constructor
  · rintro x ⟨s, rfl, hs⟩
    obtain ⟨found, s', hfirst, hs'⟩ := h.total s hs
    exact ⟨found, f s', hnext s found s' hfirst, hI s' hs'⟩
  · exact Repeats.map hnext hreset (fun s r _ => hshows s r) h.restarts

end Maps

section Product

variable {σ₁ σ₂ ρ₁ ρ₂ : Type}

/-- The second iterator goes on, or is reset while the first one goes on. -/
inductive ProductNext (it₁ : Iterator σ₁ ρ₁) (it₂ : Iterator σ₂ ρ₂) : σ₁ × σ₂ → Bool →
    σ₁ × σ₂ → Prop
  | right {s₁ : σ₁} {s₂ s₂' : σ₂} (h : it₂.next s₂ true s₂') : ProductNext it₁ it₂ (s₁, s₂) true
    (s₁, s₂')
  | left {s₁ s₁' : σ₁} {s₂ s₂' s₂₀ s₂₁ : σ₂} {found : Bool} (h : it₂.next s₂ false s₂')
      (hreset : it₂.reset s₂' s₂₀) (h₁ : it₁.next s₁ true s₁') (h₂ : it₂.next s₂₀ found s₂₁) :
      ProductNext it₁ it₂ (s₁, s₂) found (s₁', s₂₁)
  | done {s₁ s₁' : σ₁} {s₂ s₂' s₂₀ : σ₂} (h : it₂.next s₂ false s₂') (hreset : it₂.reset s₂' s₂₀)
      (h₁ : it₁.next s₁ false s₁') : ProductNext it₁ it₂ (s₁, s₂) false (s₁', s₂₀)

/-- The nested loop over two iterators. -/
def product (it₁ : Iterator σ₁ ρ₁) (it₂ : Iterator σ₂ ρ₂) : Iterator (σ₁ × σ₂) (ρ₁ × ρ₂) where
  next := ProductNext it₁ it₂
  reset s s' := ∃ s₁ found, it₁.reset s.1 s₁ ∧ it₁.next s₁ found s'.1 ∧ it₂.reset s.2 s'.2
  shows s r := it₁.shows s.1 r.1 ∧ it₂.shows s.2 r.2

variable {it₁ : Iterator σ₁ ρ₁} {it₂ : Iterator σ₂ ρ₂} {I₁ : σ₁ → Prop} {I₂ : σ₂ → Prop} {s₁ : σ₁}
  {s₂ : σ₂} {r₁ : ρ₁} {rows₁ rest₁ : List ρ₁} {rows₂ rest₂ : List ρ₂}

/-- The second iterator is reset where it ends, until the first one ends. -/
theorem product_passes {A₂ : σ₂ → Prop} (h : it₂.Walks I₂ A₂) {xs₁ : List σ₁} {xs₂ : List σ₂}
    {s₁' : σ₁}
    {s₂' : σ₂} (h₁ : it₁.Passes s₁ xs₁ s₁') (hs₁ : I₁ s₁) (hxs₁ : ∀ x ∈ xs₁, I₁ x) (hs₁' : I₁ s₁')
    (h₂ : it₂.Passes s₂ xs₂ s₂') (hxs₂ : ∀ x ∈ xs₂, I₂ x ∧ A₂ x) (hs₂' : I₂ s₂') :
    ∃ zs s', (product it₁ it₂).Passes (s₁, s₂) zs s' ∧
      (∀ z ∈ zs, (I₁ z.1 ∧ I₂ z.2) ∧ A₂ z.2) ∧ I₁ s'.1 ∧ I₂ s'.2 := by
  induction h₁ generalizing s₂ xs₂ s₂' with
  | done hend₁ =>
    induction h₂ with
    | done hend =>
      obtain ⟨s₂₀, hreset, hs₂₀⟩ := h.resets _ hs₂'
      exact ⟨[], _, .done (.done hend hreset hend₁), fun z hz => (nomatch hz), hs₁', hs₂₀⟩
    | more hnext hrest ih =>
      obtain ⟨hx, hxs₂⟩ := List.forall_mem_cons.mp hxs₂
      obtain ⟨zs, s', hpass, hzs, hs'⟩ := ih hxs₂ hs₂'
      exact ⟨_ :: zs, s', .more (.right hnext) hpass,
        List.forall_mem_cons.mpr ⟨⟨⟨hs₁, hx.1⟩, hx.2⟩, hzs⟩, hs'⟩
  | @more s₁ x₁ s₁' xs₁ hnext₁ hrest₁ ih₁ =>
    obtain ⟨hx₁, hxs₁⟩ := List.forall_mem_cons.mp hxs₁
    induction h₂ with
    | done hend =>
      obtain ⟨s₂₀, hreset, hs₂₀⟩ := h.resets _ hs₂'
      obtain ⟨ys₂, s₂₁, hpass₂, hys₂, hs₂₁⟩ := h.passes s₂₀ hs₂₀
      cases hpass₂ with
      | done hnone =>
        exact ⟨[], _, .done (.left hend hreset hnext₁ hnone), fun z hz => (nomatch hz), hx₁, hs₂₁⟩
      | more hnext hrest =>
        obtain ⟨hy, hys₂⟩ := List.forall_mem_cons.mp hys₂
        obtain ⟨zs, s', hpass, hzs, hs'⟩ := ih₁ hx₁ hxs₁ hs₁' hrest hys₂ hs₂₁
        exact ⟨_ :: zs, s', .more (.left hend hreset hnext₁ hnext) hpass,
          List.forall_mem_cons.mpr ⟨⟨⟨hx₁, hy.1⟩, hy.2⟩, hzs⟩, hs'⟩
    | more hnext hrest ih =>
      obtain ⟨hx, hxs₂⟩ := List.forall_mem_cons.mp hxs₂
      obtain ⟨zs, s', hpass, hzs, hs'⟩ := ih hxs₂ hs₂'
      exact ⟨_ :: zs, s', .more (.right hnext) hpass,
        List.forall_mem_cons.mpr ⟨⟨⟨hs₁, hx.1⟩, hx.2⟩, hzs⟩, hs'⟩

theorem product_walks {A₁ : σ₁ → Prop} {A₂ : σ₂ → Prop} (h₁ : it₁.Walks I₁ A₁)
    (h₂ : it₂.Walks I₂ A₂) :
    (product it₁ it₂).Walks (fun s => I₁ s.1 ∧ I₂ s.2) (fun s => A₂ s.2) := by
  constructor
  · rintro ⟨s₁, s₂⟩ ⟨hs₁, hs₂⟩
    obtain ⟨s₁₀, hreset₁, hs₁₀⟩ := h₁.resets s₁ hs₁
    obtain ⟨s₂₀, hreset₂, hs₂₀⟩ := h₂.resets s₂ hs₂
    obtain ⟨s₁', hnext, hs₁', -⟩ | ⟨s₁', hnext, hs₁'⟩ := h₁.answers hs₁₀
    · exact ⟨(s₁', s₂₀), ⟨s₁₀, true, hreset₁, hnext, hreset₂⟩, hs₁', hs₂₀⟩
    · exact ⟨(s₁', s₂₀), ⟨s₁₀, false, hreset₁, hnext, hreset₂⟩, hs₁', hs₂₀⟩
  · rintro ⟨s₁, s₂⟩ ⟨hs₁, hs₂⟩
    obtain ⟨xs₁, s₁', hpass₁, hxs₁, hs₁'⟩ := h₁.passes s₁ hs₁
    obtain ⟨xs₂, s₂', hpass₂, hxs₂, hs₂'⟩ := h₂.passes s₂ hs₂
    exact product_passes h₂ hpass₁ hs₁ (fun x hx => (hxs₁ x hx).1) hs₁' hpass₂ hxs₂ hs₂'

/-- Where the second iterator has no elements, the product has none, whatever the first one answers. -/
theorem product_no_more {A₁ : σ₁ → Prop} {A₂ : σ₂ → Prop} (h₁ : it₁.Walks I₁ A₁)
    (h₂ : it₂.Walks I₂ A₂)
    (hempty : ∀ x, I₂ x → ¬ A₂ x) (hs₁ : I₁ s₁) (hs₂ : I₂ s₂) :
    ∃ s', (product it₁ it₂).next (s₁, s₂) false s' ∧ I₁ s'.1 ∧ I₂ s'.2 :=
  (product_walks h₁ h₂).no_more (fun x hx => hempty x.2 hx.2) ⟨hs₁, hs₂⟩

end Product

end Iterator

end SampleDB.Iterators
