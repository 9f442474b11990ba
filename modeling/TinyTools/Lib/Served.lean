import TinyTools.Lib.Calls
import Mathlib.Algebra.BigOperators.Group.Finset.Basic
import Mathlib.Data.Multiset.AddSub
import Mathlib.Data.Finset.Max
import Mathlib.Tactic.Abel

/-!
# Servers that never block each other

As long as every request is passed on to a server of higher rank, the busy server of the highest
rank can take a step. The servers can take only so many steps, in whatever order, and no client is
lost on the way: all are served.
-/

namespace TinyTools.Lib

/-! ## Progress -/

section

variable {σ ρ α : Type} [DecidableEq σ] {v : Service σ ρ α} {good : σ → ρ → Prop}
  {s s' : Servers σ ρ α} {rank : σ → ℕ} {weight : σ → ρ → ℕ} {p q : σ}

omit [DecidableEq σ] in
/-- A server that waits for a reply is asking. -/
theorem Activity.asking_of_awaits {activity : Activity σ ρ α} {request : ρ}
    (awaits : activity.awaits = some (p, request)) :
    ∃ caller requests, activity = .asking caller requests request p true := by
  cases activity with
  | idle => cases awaits
  | receiving caller requests => cases awaits
  | replying caller requests request reply => cases awaits
  | asking caller requests request next accepted =>
    cases accepted with
    | false => cases awaits
    | true =>
      cases awaits
      exact ⟨caller, requests, rfl⟩

/-- A server that has accepted a connection and does not ask a busy server can take a step. -/
theorem Servers.Sound.moves (sound : s.Sound v good) (ranked : v.Ranked good rank weight)
    (busy : s.activity p ≠ .idle)
    (highest : ∀ q, s.activity q ≠ .idle → rank q ≤ rank p) : ∃ s', v.Step s s' := by
  have fits := sound.fits p
  cases active : s.activity p with
  | idle => exact absurd active busy
  | receiving caller requests =>
    rw [active] at fits
    cases requests with
    | nil =>
      cases caller with
      | client answered => exact ⟨_, .leave active⟩
      | server q => exact ⟨_, .close active⟩
    | cons request requests =>
      have suits := fits.2.2 request List.mem_cons_self
      rcases ranked.total p fits.1 request suits with ⟨reply, answers⟩ | ⟨next, forwards⟩
      · exact ⟨_, .answer active answers⟩
      · exact ⟨_, .forward active forwards⟩
  | asking caller requests request next accepted =>
    rw [active] at fits
    obtain ⟨live, -, suits, forwards⟩ := fits
    have suit := suits request List.mem_cons_self
    have rises := ranked.rises p live request suit next forwards
    have free : s.activity next = .idle := by
      by_contra other
      have below := highest next other
      omega
    cases accepted with
    | false => exact ⟨_, .connect (ranked.member p live request suit next forwards) free active⟩
    | true =>
      have awaits : (s.activity p).awaits = some (next, request) := by rw [active]; rfl
      have serves := (sound.linked next p request).mpr awaits
      simp only [free] at serves
      cases serves
  | replying caller requests request reply =>
    rw [active] at fits
    cases caller with
    | client answered => exact ⟨_, .reply active⟩
    | server q =>
      have none : requests = [] := by
        have short : requests.length + 1 ≤ 1 := fits.2.1
        apply List.eq_nil_of_length_eq_zero
        omega
      rw [none] at active
      have serves : (s.activity p).serves = some (q, request) := by rw [active]; rfl
      have awaits := (sound.linked p q request).mp serves
      obtain ⟨other, later, asks⟩ := Activity.asking_of_awaits awaits
      exact ⟨_, .pass active asks⟩

open Classical in
/-- Servers that can take no step have served every client. -/
theorem Servers.Sound.served (sound : s.Sound v good) (ranked : v.Ranked good rank weight)
    (stuck : ∀ s', ¬ v.Step s s') : (∀ p, s.activity p = .idle) ∧ s.pending = [] := by
  have idle : ∀ p, s.activity p = .idle := by
    by_contra some
    obtain ⟨p, busy⟩ := not_forall.mp some
    let working := v.members.filter fun q => s.activity q ≠ .idle
    have inside : ∀ q, s.activity q ≠ .idle → q ∈ working := fun q active =>
      Finset.mem_filter.mpr ⟨(sound.fits q).member active, active⟩
    obtain ⟨q, active, highest⟩ := Finset.exists_max_image working rank ⟨p, inside p busy⟩
    obtain ⟨s', step⟩ := sound.moves ranked (Finset.mem_filter.mp active).2
      fun q active => highest q (inside q active)
    exact stuck s' step
  refine ⟨idle, ?_⟩
  cases waits : s.pending with
  | nil => rfl
  | cons x later =>
    have live := (sound.pending x (by rw [waits]; exact List.mem_cons_self)).1
    have waits' : s.pending = [] ++ x :: later := waits
    exact absurd (.accept live (idle x.1) waits') (stuck _)

end

/-! ## Every run ends -/

section

variable {σ ρ α : Type}

/-- The steps that a request takes. -/
def toil (weight : σ → ρ → ℕ) (p : σ) (request : ρ) : ℕ := 5 * weight p request + 2

/-- The steps left for a connection. -/
def Activity.work (weight : σ → ρ → ℕ) (p : σ) : Activity σ ρ α → ℕ
  | .idle => 0
  | .receiving _ requests => 1 + (requests.map (toil weight p)).sum
  | .replying _ requests _ _ => 2 + (requests.map (toil weight p)).sum
  | .asking _ requests _ _ true => 3 + (requests.map (toil weight p)).sum
  | .asking _ requests request next false =>
    5 + toil weight next request + (requests.map (toil weight p)).sum

/-- The steps left. -/
def Servers.work (v : Service σ ρ α) (weight : σ → ρ → ℕ) (s : Servers σ ρ α) : ℕ :=
  ∑ p ∈ v.members, (s.activity p).work weight p +
    (s.pending.map fun x => 2 + (x.2.map (toil weight x.1)).sum).sum

variable [DecidableEq σ] {v : Service σ ρ α} {good : σ → ρ → Prop} {s s' : Servers σ ρ α}
  {rank : σ → ℕ} {weight : σ → ρ → ℕ} {p q : σ}

/-- One server's share of a sum is replaced. -/
theorem Servers.sum_set {M : Type} [AddCommMonoid M] (share : σ → Activity σ ρ α → M)
    (s : Servers σ ρ α) {members : Finset σ} (member : p ∈ members) (activity : Activity σ ρ α) :
    ∑ x ∈ members, share x ((s.set p activity).activity x) + share p (s.activity p) =
      ∑ x ∈ members, share x (s.activity x) + share p activity := by
  have others : ∑ x ∈ members.erase p, share x ((s.set p activity).activity x) =
      ∑ x ∈ members.erase p, share x (s.activity x) := by
    apply Finset.sum_congr rfl
    intro x inside
    rw [Servers.set_activity, if_neg (Finset.ne_of_mem_erase inside)]
  have own : (s.set p activity).activity p = activity := by
    rw [Servers.set_activity, if_pos rfl]
  rw [← Finset.sum_erase_add _ _ member, ← Finset.sum_erase_add _ _ member, others, own]
  abel

/-- One server's work is replaced. -/
theorem Servers.work_set (weight : σ → ρ → ℕ) (s : Servers σ ρ α) (member : p ∈ v.members)
    (activity : Activity σ ρ α) : (s.set p activity).work v weight +
      (s.activity p).work weight p = s.work v weight + activity.work weight p := by
  have changed := Servers.sum_set (fun x a => a.work weight x) s member activity
  unfold Servers.work
  have same : (s.set p activity).pending = s.pending := rfl
  rw [same]
  omega

/-- Every step leaves less to do. -/
theorem Service.Step.work (step : v.Step s s') (ranked : v.Ranked good rank weight)
    (sound : s.Sound v good) : s'.work v weight < s.work v weight := by
  cases step with
  | @accept p requests before after member free waits =>
    have changed := Servers.work_set weight s member (.receiving (.client []) requests)
    have same : (s.set p (.receiving (.client []) requests)).pending = s.pending := rfl
    unfold Servers.work at changed ⊢
    rw [free, same, waits] at changed
    rw [waits]
    simp only [Activity.work, List.map_append, List.map_cons, List.sum_append, List.sum_cons]
      at changed ⊢
    omega
  | @connect p q caller requests request member free asks =>
    have live := (sound.fits q).member (by simp [asks])
    have apart : p ≠ q := s.apart (by simp [free, asks])
    let asking := Activity.asking caller requests request p true
    have asker := Servers.work_set weight s live asking
    have asked := Servers.work_set weight (s.set q asking) member (.receiving (.server q) [request])
    rw [Servers.set_other s apart, free] at asked
    rw [asks] at asker
    simp only [asking, Activity.work, List.map_cons, List.map_nil, List.sum_cons, List.sum_nil]
      at asker asked ⊢
    omega
  | @answer p caller requests request reply receives answers =>
    have live := (sound.fits p).member (by simp [receives])
    have changed := Servers.work_set weight s live (.replying caller requests request reply)
    rw [receives] at changed
    simp only [Activity.work, toil, List.map_cons, List.sum_cons] at changed ⊢
    omega
  | @forward p next caller requests request receives forwards =>
    have fits := sound.fits p
    rw [receives] at fits
    have falls := ranked.falls p fits.1 request (fits.2.2 request List.mem_cons_self) next forwards
    have changed := Servers.work_set weight s fits.1 (.asking caller requests request next false)
    rw [receives] at changed
    simp only [Activity.work, toil, List.map_cons, List.sum_cons] at changed ⊢
    omega
  | @reply p answered requests request reply replies =>
    have live := (sound.fits p).member (by simp [replies])
    have changed := Servers.work_set weight s live
      (.receiving (.client (answered ++ [(request, reply)])) requests)
    rw [replies] at changed
    simp only [Activity.work] at changed ⊢
    omega
  | @pass p q caller requests request reply replies asks =>
    have member := (sound.fits p).member (by simp [replies])
    have live := (sound.fits q).member (by simp [asks])
    have apart : p ≠ q := s.apart (by simp [replies, asks])
    let replying := Activity.replying caller requests request reply
    have asker := Servers.work_set weight s live replying
    have asked := Servers.work_set weight (s.set q replying) member (.receiving (.server q) [])
    rw [Servers.set_other s apart, replies] at asked
    rw [asks] at asker
    simp only [replying, Activity.work, List.map_nil, List.sum_nil] at asker asked ⊢
    omega
  | @leave p answered receives =>
    have live := (sound.fits p).member (by simp [receives])
    have changed := Servers.work_set weight s live .idle
    rw [receives] at changed
    simp only [Activity.work, List.map_nil, List.sum_nil] at changed
    change (s.set p .idle).work v weight < _
    omega
  | @close p q receives =>
    have live := (sound.fits p).member (by simp [receives])
    have changed := Servers.work_set weight s live .idle
    rw [receives] at changed
    simp only [Activity.work, List.map_nil, List.sum_nil] at changed
    omega

end

/-! ## No connection is lost -/

section

variable {σ ρ α : Type}

/-- The client that a server serves, with all its requests. -/
def Activity.session (p : σ) : Activity σ ρ α → Multiset (σ × List ρ)
  | .receiving (.client answered) requests => {(p, answered.map Prod.fst ++ requests)}
  | .asking (.client answered) requests request _ _ =>
    {(p, answered.map Prod.fst ++ request :: requests)}
  | .replying (.client answered) requests request _ =>
    {(p, answered.map Prod.fst ++ request :: requests)}
  | _ => 0

/-- The clients that wait, that are served and that have left, with all their requests. -/
def Servers.sessions (v : Service σ ρ α) (s : Servers σ ρ α) : Multiset (σ × List ρ) :=
  ∑ p ∈ v.members, (s.activity p).session p +
    ((s.pending : Multiset _) + (s.ended.map fun x => (x.1, x.2.map Prod.fst) : Multiset _))

/-- A server goes on with the same client. -/
theorem Activity.session_replying (p : σ) (caller : Caller σ ρ α) (requests : List ρ) (request : ρ)
    (reply : α) : (Activity.replying caller requests request reply).session p =
      (Activity.receiving caller (request :: requests)).session p := by
  cases caller <;> rfl

/-- A server that asks another one goes on with the same client. -/
theorem Activity.session_asking (p : σ) (caller : Caller σ ρ α) (requests : List ρ) (request : ρ)
    (next : σ) (accepted : Bool) :
    (Activity.asking caller requests request next accepted).session p =
      (Activity.receiving caller (request :: requests)).session p := by
  cases caller <;> rfl

variable [DecidableEq σ] {v : Service σ ρ α} {good : σ → ρ → Prop} {s s' : Servers σ ρ α}
  {rank : σ → ℕ} {weight : σ → ρ → ℕ} {p q : σ}

/-- A server that goes on with its client. -/
theorem Servers.sessions_set (member : p ∈ v.members) {activity : Activity σ ρ α}
    (same : activity.session p = (s.activity p).session p) :
    (s.set p activity).sessions v = s.sessions v := by
  have changed := Servers.sum_set (fun x a => a.session x) s member activity
  have sums := add_right_cancel (changed.trans (congrArg _ same))
  unfold Servers.sessions
  rw [sums]
  rfl

/-- Every step keeps the clients. -/
theorem Service.Step.sessions (step : v.Step s s') (sound : s.Sound v good) :
    s'.sessions v = s.sessions v := by
  cases step with
  | @accept p requests before after member free waits =>
    have changed := Servers.sum_set (fun x a => a.session x) s member
      (.receiving (.client []) requests)
    have taken : (Activity.receiving (.client []) requests : Activity σ ρ α).session p =
        {(p, requests)} := rfl
    have empty : (Activity.idle : Activity σ ρ α).session p = 0 := rfl
    rw [free, taken, empty, add_zero] at changed
    have waiting : (s.pending : Multiset (σ × List ρ)) = {(p, requests)} + ↑(before ++ after) := by
      rw [waits]
      exact Multiset.coe_eq_coe.mpr List.perm_middle
    change ∑ x ∈ v.members,
      ((s.set p (.receiving (.client []) requests)).activity x).session x + _ = _
    rw [changed, Servers.sessions, waiting]
    change _ + ((↑(before ++ after) : Multiset (σ × List ρ)) + _) = _
    abel
  | @connect p q caller requests request member free asks =>
    have live := (sound.fits q).member (by simp [asks])
    have apart : p ≠ q := s.apart (by simp [free, asks])
    have asker : (s.set q (.asking caller requests request p true)).sessions v = s.sessions v := by
      apply Servers.sessions_set live
      rw [asks, Activity.session_asking, Activity.session_asking]
    rw [← asker]
    apply Servers.sessions_set member
    rw [Servers.set_other s apart, free]
    rfl
  | @answer p caller requests request reply receives answers =>
    have live := (sound.fits p).member (by simp [receives])
    apply Servers.sessions_set live
    rw [receives, Activity.session_replying]
  | @forward p next caller requests request receives forwards =>
    have live := (sound.fits p).member (by simp [receives])
    apply Servers.sessions_set live
    rw [receives, Activity.session_asking]
  | @reply p answered requests request reply replies =>
    have live := (sound.fits p).member (by simp [replies])
    apply Servers.sessions_set live
    rw [replies]
    simp [Activity.session]
  | @pass p q caller requests request reply replies asks =>
    have member := (sound.fits p).member (by simp [replies])
    have live := (sound.fits q).member (by simp [asks])
    have apart : p ≠ q := s.apart (by simp [replies, asks])
    have asker : (s.set q (.replying caller requests request reply)).sessions v =
        s.sessions v := by
      apply Servers.sessions_set live
      rw [asks, Activity.session_replying, Activity.session_asking]
    rw [← asker]
    apply Servers.sessions_set member
    rw [Servers.set_other s apart, replies]
    rfl
  | @leave p answered receives =>
    have live := (sound.fits p).member (by simp [receives])
    have changed := Servers.sum_set (fun x a => a.session x) s live .idle
    have closed : (Activity.receiving (.client answered) [] : Activity σ ρ α).session p =
        {(p, answered.map Prod.fst)} := by
      simp [Activity.session]
    have empty : (Activity.idle : Activity σ ρ α).session p = 0 := rfl
    rw [receives, closed, empty, add_zero] at changed
    unfold Servers.sessions
    rw [← changed]
    change ∑ x ∈ v.members, ((s.set p .idle).activity x).session x +
      (↑s.pending + ↑((p, answered.map Prod.fst) :: s.ended.map _)) = _
    rw [← Multiset.cons_coe, ← Multiset.singleton_add]
    abel
  | @close p q receives =>
    have live := (sound.fits p).member (by simp [receives])
    apply Servers.sessions_set live
    rw [receives]
    rfl

end

/-! ## Whole runs -/

section

variable {σ ρ α : Type} [DecidableEq σ] {v : Service σ ρ α} {good : σ → ρ → Prop}
  {s s' : Servers σ ρ α} {rank : σ → ℕ} {weight : σ → ρ → ℕ} {k : ℕ}

/-- Several steps keep what the servers know and the clients, and each leaves less to do. -/
theorem Service.Steps.keeps (steps : v.Steps k s s') (ranked : v.Ranked good rank weight)
    (sound : s.Sound v good) : s'.Sound v good ∧ s'.sessions v = s.sessions v ∧
      k + s'.work v weight ≤ s.work v weight := by
  induction steps with
  | none s => exact ⟨sound, rfl, by omega⟩
  | @more k s s' s'' step rest ih =>
    have less := step.work ranked sound
    obtain ⟨known, same, bounded⟩ := ih (step.sound ranked sound)
    exact ⟨known, same.trans (step.sessions sound), by omega⟩

omit [DecidableEq σ] in
/-- The sessions of idle servers are the clients' that wait and that have left. -/
theorem Servers.sessions_idle (idle : ∀ p, s.activity p = .idle) :
    s.sessions v = (s.pending : Multiset (σ × List ρ)) +
      (s.ended.map fun x => (x.1, x.2.map Prod.fst) : Multiset (σ × List ρ)) := by
  have none : ∑ p ∈ v.members, (s.activity p).session p = 0 := by
    apply Finset.sum_eq_zero
    intro p _
    rw [idle p]
    rfl
  rw [Servers.sessions, none, zero_add]

/-- Whatever steps the servers take, they come to an end, and then every client has left with the
replies to all its requests. -/
theorem Service.Steps.served {sessions : List (σ × List ρ)} (steps : v.Steps k (start sessions) s)
    (ranked : v.Ranked good rank weight)
    (suits : ∀ x ∈ sessions, x.1 ∈ v.members ∧ ∀ r ∈ x.2, good x.1 r) :
    k ≤ (start sessions : Servers σ ρ α).work v weight ∧ ((∀ s', ¬ v.Step s s') →
      (∀ p, s.activity p = .idle) ∧ s.pending = [] ∧
        (s.ended.map fun x => (x.1, x.2.map Prod.fst)).Perm sessions ∧
          ∀ x ∈ s.ended, ∀ y ∈ x.2, v.Reaches y.1 x.1 y.2) := by
  obtain ⟨sound, same, bounded⟩ := steps.keeps ranked (Servers.Sound.start suits)
  refine ⟨by omega, fun stuck => ?_⟩
  obtain ⟨idle, none⟩ := sound.served ranked stuck
  rw [Servers.sessions_idle idle, Servers.sessions_idle fun p => rfl, none] at same
  have all : (s.ended.map fun x => (x.1, x.2.map Prod.fst) : Multiset (σ × List ρ)) =
      (sessions : Multiset (σ × List ρ)) := by
    simpa only [Multiset.coe_nil, zero_add, start, List.map_nil, add_zero] using same
  exact ⟨idle, none, Multiset.coe_eq_coe.mp all, sound.ended⟩

end

end TinyTools.Lib
