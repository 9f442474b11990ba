import Mathlib.Dynamics.PeriodicPts.Defs
import TinyTools.Lib.Clockwise

/-!
# Successor pointers that form one ring

Elements with distinct keys hold a successor pointer and perhaps a predecessor pointer. The pointers
form one ring when following successors from anywhere leads into a single cycle that visits its
elements in clockwise order. New elements that point anywhere, successors that adopt an element in
between, and successors that are told of a predecessor keep it so.
-/

namespace TinyTools.Lib

open Function

variable {α : Type} {size : ℕ} {key : α → ℕ} {members cycle : Finset α} {next : α → α}

/-- Pointers lead into a cycle in clockwise order, once around. -/
structure IsOneRing (size : ℕ) (key : α → ℕ) (members : Finset α) (next : α → α)
    (cycle : Finset α) : Prop where
  /-- The cycle has an element. -/
  inhabited : cycle.Nonempty
  /-- The cycle is part of the ring. -/
  inside : cycle ⊆ members
  /-- Each element of the cycle points to the one met next, walking clockwise. -/
  ordered : ∀ c ∈ cycle, IsNext size key cycle (key c) (next c)
  /-- Every chain leads into the cycle. -/
  reached : ∀ x ∈ members, ∃ n, next^[n] x ∈ cycle

/-- The chain from a cycle element stays in the cycle. -/
theorem IsOneRing.iterate_mem (ring : IsOneRing size key members next cycle) {c : α}
    (inside : c ∈ cycle) (n : ℕ) : next^[n] c ∈ cycle := by
  induction n with
  | zero => exact inside
  | succ n ih =>
    rw [iterate_succ_apply']
    exact (ring.ordered _ ih).1

/-- The cycle passes through each of its elements. -/
theorem IsOneRing.visits (ring : IsOneRing size key members next cycle)
    (bound : ∀ x ∈ members, key x < size) (distinct : Set.InjOn key members) {c d : α}
    (start : c ∈ cycle) (stop : d ∈ cycle) : ∃ n, next^[n] c = d := by
  -- each pointer shortens the walk to the target, and none steps over it
  induction distance : clockwise size (key c) (key d) using Nat.strong_induction_on generalizing c
    with
  | _ distance ih =>
  by_cases here : c = d
  · exact ⟨0, here⟩
  have apart : key c ≠ key d := fun same =>
    here (distinct (ring.inside start) (ring.inside stop) same)
  obtain ⟨member, nearest⟩ := ring.ordered c start
  have upTo := nearest d stop
  have hc := bound c (ring.inside start)
  have hd := bound d (ring.inside stop)
  have hn := bound _ (ring.inside member)
  rw [around_of_ne apart] at upTo
  have short := clockwise_lt hc hd
  have moves : key c ≠ key (next c) := by
    intro same
    rw [← same, around_self] at upTo
    omega
  rw [around_of_ne moves] at upTo
  have split := clockwise_split hc hn hd upTo
  have moved := clockwise_pos hc moves
  obtain ⟨n, arrived⟩ := ih _ (by omega) member rfl
  exact ⟨n + 1, arrived⟩

/-- The elements that come back to themselves are those of the cycle. -/
theorem IsOneRing.mem_periodicPts (ring : IsOneRing size key members next cycle)
    (bound : ∀ x ∈ members, key x < size) (distinct : Set.InjOn key members) {x : α}
    (inside : x ∈ members) : x ∈ periodicPts next ↔ x ∈ cycle := by
  constructor
  · rintro ⟨period, positive, back⟩
    obtain ⟨n, arrived⟩ := ring.reached x inside
    -- a multiple of the period that is past the arrival
    have later : next^[n * period] x = x := (back.const_mul n)
    have past : n ≤ n * period := Nat.le_mul_of_pos_right n positive
    rw [← Nat.sub_add_cancel past, iterate_add_apply] at later
    rw [← later]
    exact ring.iterate_mem arrived _
  · intro member
    obtain ⟨n, arrived⟩ := ring.visits bound distinct (ring.ordered x member).1 member
    exact ⟨n + 1, by omega, arrived⟩

/-! ## Changes of one pointer -/

variable [DecidableEq α]

/-- Reaching the cycle is kept by a change of pointers that never leaves a chain without a way
back. -/
theorem reached_of_step {next' : α → α} {cycle' : Finset α} (subset : cycle ⊆ cycle')
    (kept : ∀ x ∉ cycle, (∃ n, next'^[n] (next x) ∈ cycle') → ∃ n, next'^[n] x ∈ cycle') {x : α}
    (reached : ∃ n, next^[n] x ∈ cycle) : ∃ n, next'^[n] x ∈ cycle' := by
  obtain ⟨n, arrived⟩ := reached
  induction n generalizing x with
  | zero => exact ⟨0, subset arrived⟩
  | succ n ih =>
    by_cases member : x ∈ cycle
    · exact ⟨0, subset member⟩
    · exact kept x member (ih arrived)

/-- A new element points anywhere. -/
theorem IsOneRing.join (ring : IsOneRing size key members next cycle)
    (closed : ∀ x ∈ members, next x ∈ members) {n q : α} (fresh : n ∉ members)
    (target : q ∈ members) :
    IsOneRing size key (insert n members) (update next n q) cycle := by
  have same {x : α} (inside : x ∈ members) : update next n q x = next x :=
    update_of_ne (ne_of_mem_of_not_mem inside fresh) ..
  have reached {x : α} (inside : x ∈ members) : ∃ m, (update next n q)^[m] x ∈ cycle := by
    obtain ⟨m, arrived⟩ := ring.reached x inside
    induction m generalizing x with
    | zero => exact ⟨0, arrived⟩
    | succ m ih =>
      obtain ⟨k, later⟩ := ih (closed x inside) arrived
      exact ⟨k + 1, by rwa [iterate_succ_apply, same inside]⟩
  refine ⟨ring.inhabited, fun c member => Finset.mem_insert_of_mem (ring.inside member), ?_, ?_⟩
  · intro c member
    rw [same (ring.inside member)]
    exact ring.ordered c member
  · intro x inside
    rcases Finset.mem_insert.mp inside with rfl | old
    · obtain ⟨m, arrived⟩ := reached target
      exact ⟨m + 1, by rwa [iterate_succ_apply, update_self]⟩
    · exact reached old

/-- An element adopted into the gap behind an element of the cycle keeps the cycle in order. -/
theorem IsOneRing.ordered_adopt (ring : IsOneRing size key members next cycle)
    (bound : ∀ x ∈ members, key x < size) (distinct : Set.InjOn key members) {p x : α}
    (adopter : p ∈ members) (adopted : x ∈ members) (points : next x = next p)
    (between : Between size (key p) (key x) (key (next p))) (member : p ∈ cycle) :
    ∀ c ∈ insert x cycle, IsNext size key (insert x cycle) (key c) (update next p x c) := by
  have apart : x ≠ p := fun equal => between.1 (congrArg key equal)
  have hp := bound p adopter
  have hx := bound x adopted
  obtain ⟨target, nearest⟩ := ring.ordered p member
  have hs := bound _ (ring.inside target)
  intro c inside
  rcases Finset.mem_insert.mp inside with rfl | old
  · rw [update_of_ne apart, points]
    refine ⟨Finset.mem_insert_of_mem target, fun r rest => ?_⟩
    rcases Finset.mem_insert.mp rest with rfl | other
    · rw [around_self]
      exact around_le hx hs
    · exact around_le_of_gap hp hx hs (bound r (ring.inside other)) between (nearest r other)
  · by_cases here : c = p
    · subst here
      rw [update_self]
      refine ⟨Finset.mem_insert_self x cycle, fun r rest => ?_⟩
      rcases Finset.mem_insert.mp rest with rfl | other
      · exact le_rfl
      · rw [around_of_ne between.1.symm]
        exact between.2.le.trans (nearest r other)
    · rw [update_of_ne here]
      obtain ⟨follows, least⟩ := ring.ordered c old
      refine ⟨Finset.mem_insert_of_mem follows, fun r rest => ?_⟩
      rcases Finset.mem_insert.mp rest with rfl | other
      · have apart : key c ≠ key p := fun same =>
          here (distinct (ring.inside old) adopter same)
        have before := between.2.trans_le (nearest c old)
        exact (least p member).trans
          (around_le_of_before hp hx (bound c (ring.inside old)) apart before)
      · exact least r other

/-- An element adopts one that lies between itself and its successor and points to that
successor. -/
theorem IsOneRing.adopt (ring : IsOneRing size key members next cycle)
    (bound : ∀ x ∈ members, key x < size) (distinct : Set.InjOn key members) {p x : α}
    (adopter : p ∈ members) (adopted : x ∈ members) (points : next x = next p)
    (between : Between size (key p) (key x) (key (next p))) :
    ∃ cycle', IsOneRing size key members (update next p x) cycle' := by
  have apart : x ≠ p := fun equal => between.1 (congrArg key equal)
  have through : update next p x x = next p := by rw [update_of_ne apart, points]
  by_cases member : p ∈ cycle
  · -- the adopted element becomes part of the cycle, in the gap behind the adopter
    have order := ring.ordered_adopt bound distinct adopter adopted points between member
    refine ⟨insert x cycle, ⟨x, Finset.mem_insert_self x cycle⟩, ?_, order, ?_⟩
    · intro c inside
      rcases Finset.mem_insert.mp inside with rfl | old
      · exact adopted
      · exact ring.inside old
    · intro y inside
      refine reached_of_step (Finset.subset_insert x cycle) (fun z outside later => ?_)
        (ring.reached y inside)
      obtain ⟨n, arrived⟩ := later
      have other : z ≠ p := (ne_of_mem_of_not_mem member outside).symm
      exact ⟨n + 1, by rwa [iterate_succ_apply, update_of_ne other]⟩
  · -- outside the cycle only the way into it changes, by one more pointer
    refine ⟨cycle, ring.inhabited, ring.inside, ?_, ?_⟩
    · intro c old
      rw [update_of_ne (ne_of_mem_of_not_mem old member)]
      exact ring.ordered c old
    · intro y inside
      refine reached_of_step subset_rfl (fun z outside later => ?_) (ring.reached y inside)
      obtain ⟨n, arrived⟩ := later
      by_cases here : z = p
      · subst here
        exact ⟨n + 2, by rwa [iterate_succ_apply, update_self, iterate_succ_apply, through]⟩
      · exact ⟨n + 1, by rwa [iterate_succ_apply, update_of_ne here]⟩

/-! ## Both pointers -/

/-- Elements with a successor each and perhaps a predecessor. -/
structure Pointers (α : Type) where
  /-- The elements. -/
  members : Finset α
  /-- The successor pointers. -/
  next : α → α
  /-- The predecessor pointers. -/
  prev : α → Option α

/-- One change of the pointers. -/
inductive Pointers.Step (size : ℕ) (key : α → ℕ) : Pointers α → Pointers α → Prop
  /-- An element that points to itself pairs up with a new one. -/
  | pair {s : Pointers α} {m n : α} (member : m ∈ s.members) (alone : s.next m = m)
    (fresh : n ∉ s.members) (apart : ∀ p ∈ s.members, key p ≠ key n) :
    Step size key s ⟨insert n s.members, update (update s.next m n) n m,
      update (update s.prev m (some n)) n none⟩
  /-- A new element points to any other, once some element points away from itself. -/
  | join {s : Pointers α} {m n q : α} (member : m ∈ s.members) (paired : s.next m ≠ m)
    (fresh : n ∉ s.members) (apart : ∀ p ∈ s.members, key p ≠ key n) (target : q ∈ s.members) :
    Step size key s ⟨insert n s.members, update s.next n q, update s.prev n none⟩
  /-- An element adopts the predecessor of its successor. -/
  | adopt {s : Pointers α} {p x : α} (member : p ∈ s.members) (known : s.prev (s.next p) = some x)
    (between : Between size (key p) (key x) (key (s.next p))) :
    Step size key s ⟨s.members, update s.next p x, s.prev⟩
  /-- A successor takes the element that points to it for its predecessor. -/
  | announce {s : Pointers α} {p : α} (member : p ∈ s.members) :
    Step size key s ⟨s.members, s.next, update s.prev (s.next p) (some p)⟩

/-- What every sequence of changes keeps. -/
structure Pointers.IsSafe (size : ℕ) (key : α → ℕ) (s : Pointers α) : Prop where
  /-- Keys are distinct. -/
  distinct : Set.InjOn key s.members
  /-- Successors are elements. -/
  closed : ∀ x ∈ s.members, s.next x ∈ s.members
  /-- A predecessor points back. -/
  sound : ∀ x ∈ s.members, ∀ p, s.prev x = some p → p ∈ s.members ∧ s.next p = x
  /-- Only an element without any other points to itself. -/
  lone : ∀ x ∈ s.members, s.next x = x → s.members = {x} ∧ s.prev x = some x
  /-- The successors form one ring. -/
  ring : ∃ cycle, IsOneRing size key s.members s.next cycle

omit [DecidableEq α] in
/-- A single element that points to itself. -/
theorem Pointers.IsSafe.single {s : Pointers α} {m : α} (only : s.members = {m})
    (self : s.next m = m) (back : s.prev m = some m) : s.IsSafe size key := by
  refine ⟨?_, ?_, ?_, ?_, {m}, ?_⟩
  · rw [only]
    simp
  · intro x inside
    rw [only, Finset.mem_singleton] at *
    rw [inside, self]
  · intro x inside p known
    rw [only, Finset.mem_singleton] at *
    subst inside
    obtain rfl : x = p := Option.some.inj (back.symm.trans known)
    exact ⟨rfl, self⟩
  · intro x inside _
    rw [only, Finset.mem_singleton] at inside
    subst inside
    exact ⟨only, back⟩
  · refine ⟨Finset.singleton_nonempty m, only ▸ subset_rfl, fun c inside => ?_, fun x inside => ?_⟩
    · rw [Finset.mem_singleton] at inside
      subst inside
      rw [self]
      refine ⟨Finset.mem_singleton_self c, fun r rest => ?_⟩
      rw [Finset.mem_singleton] at rest
      rw [rest]
    · exact ⟨0, only ▸ inside⟩

/-- Adding an element keeps keys distinct. -/
theorem injOn_insert {n : α} (distinct : Set.InjOn key members)
    (apart : ∀ p ∈ members, key p ≠ key n) : Set.InjOn key (insert n members : Finset α) := by
  intro x hx y hy same
  rcases Finset.mem_insert.mp hx with rfl | oldX <;> rcases Finset.mem_insert.mp hy with rfl | oldY
  · rfl
  · exact absurd same.symm (apart y oldY)
  · exact absurd same (apart x oldX)
  · exact distinct oldX oldY same

/-- Pairing up keeps the ring. -/
theorem Pointers.IsSafe.pair {s : Pointers α} (safe : s.IsSafe size key)
    (bound : ∀ x, key x < size) {m n : α} (member : m ∈ s.members) (alone : s.next m = m)
    (fresh : n ∉ s.members) (apart : ∀ p ∈ s.members, key p ≠ key n) :
    Pointers.IsSafe size key ⟨insert n s.members, update (update s.next m n) n m,
      update (update s.prev m (some n)) n none⟩ := by
  have other : m ≠ n := ne_of_mem_of_not_mem member fresh
  have nextM : update (update s.next m n) n m m = n := by rw [update_of_ne other, update_self]
  have nextN : update (update s.next m n) n m n = m := update_self ..
  have two : ∀ x ∈ insert n s.members, x = n ∨ x = m := by
    intro x inside
    rwa [(safe.lone m member alone).1, Finset.mem_insert, Finset.mem_singleton] at inside
  have hasN : n ∈ insert n s.members := Finset.mem_insert_self ..
  have hasM : m ∈ insert n s.members := Finset.mem_insert_of_mem member
  have follows : ∀ x ∈ insert n s.members,
      update (update s.next m n) n m x ∈ insert n s.members := by
    intro x inside
    rcases two x inside with same | same <;> rw [same]
    · rwa [nextN]
    · rwa [nextM]
  refine ⟨injOn_insert safe.distinct apart, follows, ?_, ?_, insert n s.members, ?_⟩
  · intro x inside p known
    dsimp only at known ⊢
    rcases two x inside with same | same <;> rw [same] at known ⊢
    · rw [update_self] at known
      cases known
    · rw [update_of_ne other, update_self] at known
      obtain rfl := Option.some.inj known
      exact ⟨hasN, nextN⟩
  · intro x inside self
    dsimp only at self
    rcases two x inside with same | same <;> rw [same] at self
    · exact absurd (nextN.symm.trans self) other
    · exact absurd (nextM.symm.trans self) other.symm
  · refine ⟨⟨n, hasN⟩, subset_rfl, fun c inside => ⟨follows c inside, fun r rest => ?_⟩,
      fun x inside => ⟨0, inside⟩⟩
    dsimp only
    rcases two c inside with hc | hc <;> rcases two r rest with hr | hr <;> rw [hc, hr]
    · rw [around_self]
      exact around_le (bound _) (bound _)
    · rw [nextN]
    · rw [nextM]
    · rw [around_self]
      exact around_le (bound _) (bound _)

/-- Joining keeps the ring. -/
theorem Pointers.IsSafe.join {s : Pointers α} (safe : s.IsSafe size key) {m n q : α}
    (member : m ∈ s.members) (paired : s.next m ≠ m) (fresh : n ∉ s.members)
    (apart : ∀ p ∈ s.members, key p ≠ key n) (target : q ∈ s.members) :
    Pointers.IsSafe size key ⟨insert n s.members, update s.next n q, update s.prev n none⟩ := by
  have old : ∀ x ∈ s.members, update s.next n q x = s.next x := fun x inside =>
    update_of_ne (ne_of_mem_of_not_mem inside fresh) ..
  obtain ⟨cycle, ring⟩ := safe.ring
  refine ⟨injOn_insert safe.distinct apart, ?_, ?_, ?_, cycle, ring.join safe.closed fresh target⟩
  · intro x inside
    dsimp only
    rcases Finset.mem_insert.mp inside with rfl | before
    · rw [update_self]
      exact Finset.mem_insert_of_mem target
    · rw [old x before]
      exact Finset.mem_insert_of_mem (safe.closed x before)
  · intro x inside p known
    dsimp only at known ⊢
    rcases Finset.mem_insert.mp inside with rfl | before
    · rw [update_self] at known
      cases known
    · rw [update_of_ne (ne_of_mem_of_not_mem before fresh)] at known
      obtain ⟨holder, back⟩ := safe.sound x before p known
      exact ⟨Finset.mem_insert_of_mem holder, (old p holder).trans back⟩
  · intro x inside self
    dsimp only at self
    rcases Finset.mem_insert.mp inside with rfl | before
    · rw [update_self] at self
      exact absurd (self ▸ target) fresh
    · -- an element that points to itself would be the only one, and the paired one is not it
      rw [old x before] at self
      have only := (safe.lone x before self).1
      rw [only, Finset.mem_singleton] at member
      exact absurd (member ▸ self) paired

/-- Adopting keeps the ring. -/
theorem Pointers.IsSafe.adopt {s : Pointers α} (safe : s.IsSafe size key)
    (bound : ∀ x, key x < size) {p x : α} (member : p ∈ s.members)
    (known : s.prev (s.next p) = some x)
    (between : Between size (key p) (key x) (key (s.next p))) :
    Pointers.IsSafe size key ⟨s.members, update s.next p x, s.prev⟩ := by
  have apart : x ≠ p := fun equal => between.1 (congrArg key equal)
  obtain ⟨adopted, points⟩ := safe.sound _ (safe.closed p member) x known
  obtain ⟨cycle, ring⟩ := safe.ring
  refine ⟨safe.distinct, ?_, ?_, ?_,
    ring.adopt (fun y _ => bound y) safe.distinct member adopted points between⟩
  · intro y inside
    dsimp only
    by_cases here : y = p
    · rwa [here, update_self]
    · rw [update_of_ne here]
      exact safe.closed y inside
  · intro y inside q holds
    dsimp only at holds ⊢
    obtain ⟨holder, back⟩ := safe.sound y inside q holds
    refine ⟨holder, ?_⟩
    -- the adopter was the predecessor of nobody: its successor names the adopted element
    have other : q ≠ p := by
      rintro rfl
      rw [back] at known
      exact apart (Option.some.inj (known.symm.trans holds))
    rw [update_of_ne other, back]
  · intro y inside self
    dsimp only at self
    by_cases here : y = p
    · rw [here, update_self] at self
      exact absurd self apart
    · rw [update_of_ne here] at self
      have only := (safe.lone y inside self).1
      rw [only, Finset.mem_singleton] at member
      exact absurd member.symm here

/-- Announcing keeps the ring. -/
theorem Pointers.IsSafe.announce {s : Pointers α} (safe : s.IsSafe size key) {p : α}
    (member : p ∈ s.members) :
    Pointers.IsSafe size key ⟨s.members, s.next, update s.prev (s.next p) (some p)⟩ := by
  refine ⟨safe.distinct, safe.closed, ?_, ?_, safe.ring⟩
  · intro y inside q holds
    dsimp only at holds ⊢
    by_cases here : y = s.next p
    · rw [here, update_self] at holds
      obtain rfl := Option.some.inj holds
      exact ⟨member, here.symm⟩
    · rw [update_of_ne here] at holds
      exact safe.sound y inside q holds
  · intro y inside self
    obtain ⟨only, back⟩ := safe.lone y inside self
    have same := member
    rw [only, Finset.mem_singleton] at same
    refine ⟨only, ?_⟩
    dsimp only
    rw [same, self, update_self]

/-- Every change keeps the ring. -/
theorem Pointers.Step.safe {s t : Pointers α} (step : Pointers.Step size key s t)
    (bound : ∀ x, key x < size) (safe : s.IsSafe size key) : t.IsSafe size key := by
  cases step with
  | pair member alone fresh apart => exact safe.pair bound member alone fresh apart
  | join member paired fresh apart target => exact safe.join member paired fresh apart target
  | adopt member known between => exact safe.adopt bound member known between
  | announce member => exact safe.announce member

end TinyTools.Lib
