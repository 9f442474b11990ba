import TinyTools.Lib.Calls

/-!
# Servers that wait in a circle

When every server but one passes a request on upwards, a client of any other server makes them wait
up to that one. A second client is enough to keep it waiting for the first server: then every busy
server waits for another busy one, and nothing happens any more.
-/

namespace TinyTools.Lib

section

variable {σ ρ α : Type}

/-- Who waits for the server. -/
def Activity.caller : Activity σ ρ α → Option (Caller σ ρ α)
  | .idle => none
  | .receiving caller _ => some caller
  | .asking caller _ _ _ _ => some caller
  | .replying caller _ _ _ => some caller

/-- No client has a reply to any request. -/
structure Servers.Unreplied (s : Servers σ ρ α) : Prop where
  /-- No client has left. -/
  ended : s.ended = []
  /-- The clients that are served have none. -/
  served : ∀ p answered, (s.activity p).caller = some (.client answered) → answered = []

/-- A server does nothing, or waits for another one that is busy. -/
def Servers.Waits (s : Servers σ ρ α) (p : σ) : Prop :=
  s.activity p = .idle ∨ ∃ caller requests request next accepted,
    s.activity p = .asking caller requests request next accepted ∧ next ≠ p ∧
      s.activity next ≠ .idle

variable [DecidableEq σ] {v : Service σ ρ α} {s : Servers σ ρ α} {rank : σ → ℕ} {p q z : σ}
  {r r' : ρ}

/-- Where all servers wait, nothing happens. -/
theorem Servers.Waits.stuck (waits : ∀ p, s.Waits p) (none : s.pending = []) :
    ∀ s', ¬ v.Step s s' := by
  have doing : ∀ p, s.activity p = .idle ∨ ∃ caller requests request next accepted,
      s.activity p = .asking caller requests request next accepted := fun p =>
    (waits p).imp_right fun ⟨caller, requests, request, next, accepted, asks, _, _⟩ =>
      ⟨caller, requests, request, next, accepted, asks⟩
  intro s' step
  cases step with
  | accept member free pending => simp [none] at pending
  | @connect p q caller requests request member free asks =>
    rcases waits q with idle | ⟨caller', requests', request', next, accepted, asks', -, busy⟩
    · rw [idle] at asks
      cases asks
    · rw [asks] at asks'
      cases asks'
      exact busy free
  | @answer p caller requests request reply receives answers =>
    have other := doing p
    simp [receives] at other
  | @forward p next caller requests request receives forwards =>
    have other := doing p
    simp [receives] at other
  | @reply p answered requests request reply replies =>
    have other := doing p
    simp [replies] at other
  | @pass p q caller requests request reply replies asks =>
    have other := doing p
    simp [replies] at other
  | @leave p answered receives =>
    have other := doing p
    simp [receives] at other
  | @close p q receives =>
    have other := doing p
    simp [receives] at other

/-- A server goes on waiting when others start to do something. -/
theorem Servers.Waits.set (waits : s.Waits q) (apart : q ≠ p) {activity : Activity σ ρ α}
    (busy : activity ≠ .idle) : (s.set p activity).Waits q := by
  unfold Servers.Waits
  rw [Servers.set_other s apart]
  rcases waits with idle | ⟨caller, requests, request, next, accepted, asks, other, active⟩
  · exact Or.inl idle
  · refine Or.inr ⟨caller, requests, request, next, accepted, asks, other, ?_⟩
    rw [Servers.set_activity]
    split
    · exact busy
    · exact active

/-- No client gets a reply when a server starts to do something for the one it has served. -/
theorem Servers.Unreplied.set (unreplied : s.Unreplied) {activity : Activity σ ρ α}
    (own : ∀ answered, activity.caller = some (.client answered) → answered = []) :
    (s.set p activity).Unreplied where
  ended := unreplied.ended
  served q answered serves := by
    rw [Servers.set_activity] at serves
    split at serves
    · exact own answered serves
    · exact unreplied.served q answered serves

/-! ## Passing on -/

/-- A server has passed a request on, and the next one has accepted it. -/
def Servers.passOn (s : Servers σ ρ α) (p : σ) (caller : Caller σ ρ α) (requests : List ρ) (r : ρ)
    (f : σ) : Servers σ ρ α :=
  ((s.set p (.asking caller requests r f false)).set p (.asking caller requests r f true)).set f
    (.receiving (.server p) [r])

section

variable {caller : Caller σ ρ α} {requests : List ρ} {f : σ}

/-- The next one has received it. -/
theorem Servers.passOn_next :
    (s.passOn p caller requests r f).activity f = .receiving (.server p) [r] := by
  unfold passOn
  rw [Servers.set_activity, if_pos rfl]

/-- All others do what they did. -/
theorem Servers.passOn_other (first : q ≠ p) (second : q ≠ f) :
    (s.passOn p caller requests r f).activity q = s.activity q := by
  unfold passOn
  rw [Servers.set_other _ second, Servers.set_other _ first, Servers.set_other _ first]

/-- The server that passes it on waits, and all others wait on. -/
theorem Servers.passOn_waits (apart : f ≠ p) (others : ∀ q, q ≠ p → s.Waits q) (other : q ≠ f) :
    (s.passOn p caller requests r f).Waits q := by
  by_cases same : q = p
  · rw [same]
    refine Or.inr ⟨caller, requests, r, f, true, ?_, apart, ?_⟩
    · unfold passOn
      rw [Servers.set_other _ apart.symm, Servers.set_activity, if_pos rfl]
    · simp [passOn_next]
  · exact (((others q same).set same (by simp)).set same (by simp)).set other (by simp)

/-- No client gets a reply. -/
theorem Servers.Unreplied.passOn (unreplied : s.Unreplied)
    (own : ∀ answered, some caller = some (.client answered) → answered = []) :
    (s.passOn p caller requests r f).Unreplied := by
  have asks : (s.set p (.asking caller requests r f false)).Unreplied := unreplied.set own
  have accepted : ((s.set p (.asking caller requests r f false)).set p
      (.asking caller requests r f true)).Unreplied := asks.set own
  exact accepted.set fun answered serves => by cases serves

/-- An idle server accepts what is passed on to it. -/
theorem Service.step_passOn (receives : s.activity p = .receiving caller (r :: requests))
    (forwards : v.forwards p r f) (member : f ∈ v.members) (idle : s.activity f = .idle)
    (apart : f ≠ p) : ∃ asked, v.Step s asked ∧ v.Step asked (s.passOn p caller requests r f) := by
  refine ⟨s.set p (.asking caller requests r f false), .forward receives forwards, ?_⟩
  apply Step.connect member
  · rw [Servers.set_other s apart]
    exact idle
  · rw [Servers.set_activity, if_pos rfl]

end

/-! ## Circles -/

/-- A request that every server but one passes on upwards comes to that one, and all wait. -/
theorem Service.circle (upward : ∀ p ∈ v.members, p ≠ z →
      ∃ f ∈ v.members, v.forwards p r f ∧ rank p < rank f) {limit : ℕ}
    (below : ∀ p ∈ v.members, rank p < limit) (live : p ∈ v.members) (apart : p ≠ z)
    {caller : Caller σ ρ α} {requests : List ρ} (receives : s.activity p =
      .receiving caller (r :: requests)) (busy : s.activity z ≠ .idle)
    (free : ∀ f ∈ v.members, rank p < rank f → f ≠ z → s.activity f = .idle)
    (others : ∀ q, q ≠ p → s.Waits q) (none : s.pending = []) (unreplied : s.Unreplied) :
    ∃ k s', v.Steps k s s' ∧ s'.activity z ≠ .idle ∧ (∀ q, s'.Waits q) ∧ s'.Unreplied ∧
      s'.pending = [] := by
  induction distance : limit - rank p using Nat.strong_induction_on generalizing p s caller
    requests with
  | _ distance ih =>
  obtain ⟨f, member, forwards, higher⟩ := upward p live apart
  have higher' {g : σ} (above : rank p < rank g) : g ≠ p := by
    intro same
    rw [same] at above
    exact lt_irrefl _ above
  have own : ∀ answered, some caller = some (.client answered) → answered = [] :=
    fun answered serves => unreplied.served p answered (by rw [receives]; exact serves)
  by_cases last : f = z
  · let asked := s.set p (.asking caller requests r f false)
    have busy' : asked.activity z ≠ .idle := by
      rw [Servers.set_other s apart.symm]
      exact busy
    have waits : ∀ q, asked.Waits q := by
      intro q
      by_cases same : q = p
      · rw [same]
        refine Or.inr ⟨caller, requests, r, f, false, ?_, higher' higher, ?_⟩
        · rw [Servers.set_activity, if_pos rfl]
        · rw [last]
          exact busy'
      · exact (others q same).set same (by simp)
    exact ⟨1, asked, .more (.forward receives forwards) (.none _), busy', waits,
      unreplied.set own, none⟩
  · obtain ⟨asked, first, second⟩ := Service.step_passOn receives forwards member
      (free f member higher last) (higher' higher)
    have bound := below p live
    have bound' := below f member
    have free' : ∀ g ∈ v.members, rank f < rank g → g ≠ z →
        (s.passOn p caller requests r f).activity g = .idle := by
      intro g inside above other
      have second : g ≠ f := by
        intro same
        rw [same] at above
        exact lt_irrefl _ above
      rw [Servers.passOn_other (higher' (higher.trans above)) second]
      exact free g inside (higher.trans above) other
    have busy' : (s.passOn p caller requests r f).activity z ≠ .idle := by
      rw [Servers.passOn_other apart.symm fun same => last same.symm]
      exact busy
    have waits : ∀ q, q ≠ f → (s.passOn p caller requests r f).Waits q :=
      fun q => Servers.passOn_waits (higher' higher) others
    obtain ⟨k, s', steps, stuck⟩ := ih (limit - rank f) (by omega) member last
      Servers.passOn_next busy' free' waits none (unreplied.passOn own) rfl
    exact ⟨k + 2, s', .more first (.more second steps), stuck⟩

/-- Two clients are enough: the request of the first one is passed on downwards, the request of the
other one from there upwards to the server that waits. Every busy server then waits for another
one. -/
theorem Service.deadlock (upward : ∀ p ∈ v.members, p ≠ z →
      ∃ f ∈ v.members, v.forwards p r f ∧ rank p < rank f) {limit : ℕ}
    (below : ∀ p ∈ v.members, rank p < limit) (top : z ∈ v.members) (live : p ∈ v.members)
    (apart : p ≠ z) (downward : v.forwards z r' p) :
    ∃ k s', v.Steps k (start [(z, [r']), (p, [r])]) s' ∧ s'.activity z ≠ .idle ∧
      (∀ q, s'.Waits q) ∧ s'.Unreplied ∧ ∀ s'', ¬ v.Step s' s'' := by
  let begun : Servers σ ρ α := start [(z, [r']), (p, [r])]
  let first : Servers σ ρ α :=
    { begun.set z (.receiving (.client []) [r']) with pending := [(p, [r])] }
  let second : Servers σ ρ α := { first.set p (.receiving (.client []) [r]) with pending := [] }
  let third : Servers σ ρ α := second.set z (.asking (.client []) [] r' p false)
  have waiting : begun.pending = [] ++ (z, [r']) :: [(p, [r])] := rfl
  have one : v.Step begun first := .accept top rfl waiting
  have two : v.Step first second := by
    have idle : first.activity p = .idle := Servers.set_other begun apart _
    have waiting' : first.pending = [] ++ (p, [r]) :: [] := rfl
    exact .accept live idle waiting'
  have asker : second.activity z = .receiving (.client []) [r'] := by
    have taken : first.activity z = .receiving (.client []) [r'] := Function.update_self ..
    exact (Servers.set_other first apart.symm _).trans taken
  have three : v.Step second third := .forward asker downward
  have asks : third.activity z = .asking (.client []) [] r' p false := Function.update_self ..
  have receives : third.activity p = .receiving (.client []) [r] := by
    have taken : second.activity p = .receiving (.client []) [r] := Function.update_self ..
    exact (Servers.set_other second apart _).trans taken
  have idle : ∀ q, q ≠ z → q ≠ p → third.activity q = .idle := by
    intro q other other'
    calc
      third.activity q = second.activity q := Servers.set_other second other _
      _ = first.activity q := Servers.set_other first other' _
      _ = .idle := Servers.set_other begun other _
  have free : ∀ f ∈ v.members, rank p < rank f → f ≠ z → third.activity f = .idle := by
    intro f inside above other
    apply idle f other
    intro same
    rw [same] at above
    exact lt_irrefl _ above
  have waits : ∀ q, q ≠ p → third.Waits q := by
    intro q other
    by_cases same : q = z
    · rw [same]
      exact Or.inr ⟨_, _, _, _, _, asks, apart, by simp [receives]⟩
    · exact Or.inl (idle q same other)
  have fresh (answered : List (ρ × α)) (serves : some (Caller.client []) =
      some (.client answered : Caller σ ρ α)) : answered = [] := by
    cases serves
    rfl
  have start_ : begun.Unreplied := ⟨rfl, fun q answered serves => by cases serves⟩
  have unreplied : third.Unreplied := by
    have accepted : (begun.set z (.receiving (.client []) [r'])).Unreplied := start_.set fresh
    have one' : first.Unreplied := ⟨accepted.ended, accepted.served⟩
    have accepted' : (first.set p (.receiving (.client []) [r])).Unreplied := one'.set fresh
    have two' : second.Unreplied := ⟨accepted'.ended, accepted'.served⟩
    exact two'.set fresh
  obtain ⟨k, s', steps, busy, circle, same, none⟩ := Service.circle upward below live apart receives
    (by simp [asks]) free waits rfl unreplied
  exact ⟨k + 3, s', .more one (.more two (.more three steps)), busy, circle, same,
    Servers.Waits.stuck circle none⟩

end

end TinyTools.Lib
