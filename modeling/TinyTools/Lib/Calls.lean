import Mathlib.Data.Finset.Basic

/-!
# Servers that serve one connection at a time

A server accepts a connection, answers the requests that come over it, and only when it is closed
accepts another one. To a request that it does not answer itself it connects to another server, and
it waits for the reply while its own caller waits. Every step keeps who waits for whom and, where
requests are passed on to servers of higher rank, what the servers know of them.
-/

namespace TinyTools.Lib

/-- What servers do with requests. -/
structure Service (σ ρ α : Type) where
  /-- The servers. -/
  members : Finset σ
  /-- A server replies to a request by itself. -/
  answers : σ → ρ → α → Prop
  /-- A server passes a request on. -/
  forwards : σ → ρ → σ → Prop

/-- Who waits at the other end of a connection. -/
inductive Caller (σ ρ α : Type)
  /-- A client, with the requests that have been answered and the replies. -/
  | client (answered : List (ρ × α))
  /-- A server that passes a request on. -/
  | server (server : σ)

/-- What a server does: the connection that it serves, with the requests to come over it. -/
inductive Activity (σ ρ α : Type)
  /-- It waits for a connection. -/
  | idle
  /-- It takes the next request, or sees that the connection was closed. -/
  | receiving (caller : Caller σ ρ α) (requests : List ρ)
  /-- It has connected to another server, which has accepted or not, and waits for the reply. -/
  | asking (caller : Caller σ ρ α) (requests : List ρ) (request : ρ) (next : σ) (accepted : Bool)
  /-- It has the reply. -/
  | replying (caller : Caller σ ρ α) (requests : List ρ) (request : ρ) (reply : α)

/-- The servers and the clients. The connection of a server that asks another one waits for as long
as it is not accepted. -/
structure Servers (σ ρ α : Type) where
  /-- What every server does. -/
  activity : σ → Activity σ ρ α
  /-- The clients that wait to be accepted, with the server and their requests. -/
  pending : List (σ × List ρ)
  /-- The clients that have closed their connections, with the replies. -/
  ended : List (σ × List (ρ × α))

section

variable {σ ρ α : Type}

/-- Servers that do different things are different. -/
theorem Servers.apart (s : Servers σ ρ α) {p q : σ} (differ : s.activity p ≠ s.activity q) :
    p ≠ q := fun same => differ (congrArg s.activity same)

variable [DecidableEq σ]

/-- A server does something else. -/
def Servers.set (s : Servers σ ρ α) (p : σ) (activity : Activity σ ρ α) : Servers σ ρ α :=
  { s with activity := Function.update s.activity p activity }

/-- What one server does is replaced. -/
theorem Servers.set_activity (s : Servers σ ρ α) (p q : σ) (activity : Activity σ ρ α) :
    (s.set p activity).activity q = if q = p then activity else s.activity q :=
  Function.update_apply s.activity p activity q

/-- The other servers do what they did. -/
theorem Servers.set_other (s : Servers σ ρ α) {p q : σ} (apart : p ≠ q)
    (activity : Activity σ ρ α) : (s.set q activity).activity p = s.activity p := by
  rw [Servers.set_activity, if_neg apart]

end

namespace Service

variable {σ ρ α : Type} [DecidableEq σ]

/-- One step of one server. -/
inductive Step (v : Service σ ρ α) : Servers σ ρ α → Servers σ ρ α → Prop
  /-- A client is accepted. -/
  | accept {s : Servers σ ρ α} {p : σ} {requests : List ρ} {before after : List (σ × List ρ)}
    (member : p ∈ v.members) (free : s.activity p = .idle)
    (waits : s.pending = before ++ (p, requests) :: after) :
    Step v s { s.set p (.receiving (.client []) requests) with pending := before ++ after }
  /-- A server is accepted. -/
  | connect {s : Servers σ ρ α} {p q : σ} {caller : Caller σ ρ α} {requests : List ρ} {request : ρ}
    (member : p ∈ v.members) (free : s.activity p = .idle)
    (asks : s.activity q = .asking caller requests request p false) :
    Step v s ((s.set q (.asking caller requests request p true)).set p
      (.receiving (.server q) [request]))
  /-- A request is answered. -/
  | answer {s : Servers σ ρ α} {p : σ} {caller : Caller σ ρ α} {requests : List ρ} {request : ρ}
    {reply : α} (receives : s.activity p = .receiving caller (request :: requests))
    (answers : v.answers p request reply) :
    Step v s (s.set p (.replying caller requests request reply))
  /-- A request is passed on. -/
  | forward {s : Servers σ ρ α} {p next : σ} {caller : Caller σ ρ α} {requests : List ρ}
    {request : ρ} (receives : s.activity p = .receiving caller (request :: requests))
    (forwards : v.forwards p request next) :
    Step v s (s.set p (.asking caller requests request next false))
  /-- A client gets its reply. -/
  | reply {s : Servers σ ρ α} {p : σ} {answered : List (ρ × α)} {requests : List ρ} {request : ρ}
    {reply : α} (replies : s.activity p = .replying (.client answered) requests request reply) :
    Step v s (s.set p (.receiving (.client (answered ++ [(request, reply)])) requests))
  /-- A server gets its reply. -/
  | pass {s : Servers σ ρ α} {p q : σ} {caller : Caller σ ρ α} {requests : List ρ} {request : ρ}
    {reply : α} (replies : s.activity p = .replying (.server q) [] request reply)
    (asks : s.activity q = .asking caller requests request p true) :
    Step v s ((s.set q (.replying caller requests request reply)).set p
      (.receiving (.server q) []))
  /-- A client has closed its connection. -/
  | leave {s : Servers σ ρ α} {p : σ} {answered : List (ρ × α)}
    (receives : s.activity p = .receiving (.client answered) []) :
    Step v s { s.set p .idle with ended := (p, answered) :: s.ended }
  /-- A server has closed its connection. -/
  | close {s : Servers σ ρ α} {p q : σ} (receives : s.activity p = .receiving (.server q) []) :
    Step v s (s.set p .idle)

/-- Several steps. -/
inductive Steps (v : Service σ ρ α) : ℕ → Servers σ ρ α → Servers σ ρ α → Prop
  | none (s : Servers σ ρ α) : Steps v 0 s s
  | more {k : ℕ} {s s' s'' : Servers σ ρ α} (step : v.Step s s') (rest : Steps v k s' s'') :
    Steps v (k + 1) s s''

/-- Some clients connect. -/
def start (sessions : List (σ × List ρ)) : Servers σ ρ α := ⟨fun _ => .idle, sessions, []⟩

/-- A request comes to a server that answers it. -/
inductive Reaches (v : Service σ ρ α) (request : ρ) : σ → α → Prop
  | answer {p : σ} {reply : α} (answers : v.answers p request reply) : Reaches v request p reply
  | forward {p next : σ} {reply : α} (forwards : v.forwards p request next)
    (rest : Reaches v request next reply) : Reaches v request p reply

end Service

/-! ## Who waits for whom -/

/-- Two partial maps are inverse to each other, with a label on every pair. -/
def Matched {σ ρ : Type} (f g : σ → Option (σ × ρ)) : Prop :=
  ∀ p q r, f p = some (q, r) ↔ g q = some (p, r)

section

variable {σ ρ : Type} [DecidableEq σ] {f g : σ → Option (σ × ρ)} {p q : σ} {r : ρ}

/-- A new pair. -/
theorem Matched.add (matched : Matched f g) (unserved : f p = none) (free : g q = none) :
    Matched (Function.update f p (some (q, r))) (Function.update g q (some (p, r))) := by
  intro x y t
  have old := matched x y t
  rw [Function.update_apply, Function.update_apply]
  by_cases first : x = p
  · subst first
    by_cases second : y = q
    · subst second
      simp
    · rw [if_pos rfl, if_neg second, ← old, unserved]
      simp [Ne.symm second]
  · rw [if_neg first]
    by_cases second : y = q
    · subst second
      rw [if_pos rfl, old, free]
      simp [Ne.symm first]
    · rw [if_neg second]
      exact old

/-- A pair is given up. -/
theorem Matched.remove (matched : Matched f g) (pair : f p = some (q, r)) :
    Matched (Function.update f p none) (Function.update g q none) := by
  intro x y t
  have old := matched x y t
  have back := (matched p q r).mp pair
  rw [Function.update_apply, Function.update_apply]
  by_cases first : x = p
  · subst first
    by_cases second : y = q
    · subst second
      simp
    · rw [if_pos rfl, if_neg second, ← old, pair]
      simp [Ne.symm second]
  · rw [if_neg first]
    by_cases second : y = q
    · subst second
      rw [if_pos rfl, old, back]
      simp [Ne.symm first]
    · rw [if_neg second]
      exact old

end

section

variable {σ ρ α : Type}

/-- The server that waits for a server's reply, with its request. -/
def Activity.serves : Activity σ ρ α → Option (σ × ρ)
  | .receiving (.server q) [request] => some (q, request)
  | .asking (.server q) [] request _ _ => some (q, request)
  | .replying (.server q) [] request _ => some (q, request)
  | _ => none

/-- The server that has accepted a server's request. -/
def Activity.awaits : Activity σ ρ α → Option (σ × ρ)
  | .asking _ _ request next true => some (next, request)
  | _ => none

/-- Servers that wait for a reply are waited on by the servers that have accepted them. -/
def Servers.Linked (s : Servers σ ρ α) : Prop :=
  Matched (fun p => (s.activity p).serves) (fun p => (s.activity p).awaits)

/-- A request that is answered is still the same server's. -/
theorem Activity.serves_replying (caller : Caller σ ρ α) (requests : List ρ) (request : ρ)
    (reply : α) : (Activity.replying caller requests request reply).serves =
      (Activity.receiving caller (request :: requests)).serves := by
  cases caller with
  | client answered => rfl
  | server q => cases requests <;> rfl

/-- A request that is passed on is still the same server's. -/
theorem Activity.serves_asking (caller : Caller σ ρ α) (requests : List ρ) (request : ρ) (next : σ)
    (accepted : Bool) : (Activity.asking caller requests request next accepted).serves =
      (Activity.receiving caller (request :: requests)).serves := by
  cases caller with
  | client answered => rfl
  | server q => cases requests <;> rfl

variable [DecidableEq σ]

/-- What one server does is seen at that server alone. -/
theorem Servers.map_set {β : Type} (f : Activity σ ρ α → β) (s : Servers σ ρ α) (p : σ)
    (activity : Activity σ ρ α) : (fun q => f ((s.set p activity).activity q)) =
      Function.update (fun q => f (s.activity q)) p (f activity) := by
  funext q
  rw [Servers.set_activity, Function.update_apply]
  split <;> rfl

/-- Two servers do something else, one of them unseen. -/
theorem Servers.map_set_first {β : Type} (f : Activity σ ρ α → β) (s : Servers σ ρ α) {p q : σ}
    (a : Activity σ ρ α) {b : Activity σ ρ α} (same : f b = f (s.activity q)) :
    (fun x => f (((s.set q b).set p a).activity x)) =
      Function.update (fun x => f (s.activity x)) p (f a) := by
  rw [Servers.map_set, Servers.map_set, same, Function.update_eq_self]

/-- Two servers do something else, the other one unseen. -/
theorem Servers.map_set_second {β : Type} (f : Activity σ ρ α → β) (s : Servers σ ρ α) {p q : σ}
    (apart : p ≠ q) {a : Activity σ ρ α} (b : Activity σ ρ α) (same : f a = f (s.activity p)) :
    (fun x => f (((s.set q b).set p a).activity x)) =
      Function.update (fun x => f (s.activity x)) q (f b) := by
  rw [Servers.map_set, Servers.map_set, Function.update_comm apart.symm, same,
    Function.update_eq_self]

/-- A server that waits for the same as before. -/
theorem Servers.Linked.set {s : Servers σ ρ α} (linked : s.Linked) {p : σ}
    {activity : Activity σ ρ α} (serves : activity.serves = (s.activity p).serves)
    (awaits : activity.awaits = (s.activity p).awaits) : (s.set p activity).Linked := by
  unfold Servers.Linked
  rw [Servers.map_set, Servers.map_set, serves, awaits, Function.update_eq_self,
    Function.update_eq_self]
  exact linked

end

namespace Service

variable {σ ρ α : Type} [DecidableEq σ] {v : Service σ ρ α} {s s' : Servers σ ρ α}

/-- Every step keeps the links. -/
theorem Step.linked (step : v.Step s s') (linked : s.Linked) : s'.Linked := by
  cases step with
  | accept member free waits => exact linked.set (by rw [free]; rfl) (by rw [free]; rfl)
  | @connect p q caller requests request member free asks =>
    have unserved : (s.activity p).serves = none := by rw [free]; rfl
    have unmet : (s.activity q).awaits = none := by rw [asks]; rfl
    have apart : p ≠ q := s.apart (by simp [free, asks])
    have added := Matched.add (r := request) linked unserved unmet
    unfold Servers.Linked
    rw [Servers.map_set_first, Servers.map_set_second _ _ apart]
    · exact added
    · rw [free]
      rfl
    · rw [asks, Activity.serves_asking, Activity.serves_asking]
  | answer receives answers =>
    apply linked.set
    · rw [receives, Activity.serves_replying]
    · rw [receives]
      rfl
  | forward receives forwards =>
    apply linked.set
    · rw [receives, Activity.serves_asking]
    · rw [receives]
      rfl
  | reply replies => exact linked.set (by rw [replies]; rfl) (by rw [replies]; rfl)
  | @pass p q caller requests request reply replies asks =>
    have served : (s.activity p).serves = some (q, request) := by rw [replies]; rfl
    have apart : p ≠ q := s.apart (by simp [replies, asks])
    have removed := Matched.remove linked served
    unfold Servers.Linked
    rw [Servers.map_set_first, Servers.map_set_second _ _ apart]
    · exact removed
    · rw [replies]
      rfl
    · rw [asks, Activity.serves_replying, Activity.serves_asking]
  | leave receives => exact linked.set (by rw [receives]; rfl) (by rw [receives]; rfl)
  | close receives => exact linked.set (by rw [receives]; rfl) (by rw [receives]; rfl)

end Service

/-! ## What the servers know -/

/-- Requests that are passed on go to members of higher rank, and only so many times. -/
structure Service.Ranked {σ ρ α : Type} (v : Service σ ρ α) (good : σ → ρ → Prop) (rank : σ → ℕ)
    (weight : σ → ρ → ℕ) : Prop where
  /-- Every request is answered or passed on. -/
  total : ∀ p ∈ v.members, ∀ r, good p r →
    (∃ reply, v.answers p r reply) ∨ ∃ next, v.forwards p r next
  /-- The next server is a member. -/
  member : ∀ p ∈ v.members, ∀ r, good p r → ∀ next, v.forwards p r next → next ∈ v.members
  /-- The request suits it. -/
  suits : ∀ p ∈ v.members, ∀ r, good p r → ∀ next, v.forwards p r next → good next r
  /-- It ranks higher. -/
  rises : ∀ p ∈ v.members, ∀ r, good p r → ∀ next, v.forwards p r next → rank p < rank next
  /-- The request is passed on less often from there. -/
  falls : ∀ p ∈ v.members, ∀ r, good p r → ∀ next, v.forwards p r next →
    weight next r < weight p r

section

variable {σ ρ α : Type} (v : Service σ ρ α) (good : σ → ρ → Prop)

/-- A client has true replies, a server has one request. -/
def Caller.Fits (p : σ) (left : ℕ) : Caller σ ρ α → Prop
  | .client answered => ∀ x ∈ answered, v.Reaches x.1 p x.2
  | .server _ => left ≤ 1

/-- What holds of the connection that a server serves. -/
def Activity.Fits (p : σ) : Activity σ ρ α → Prop
  | .idle => True
  | .receiving caller requests =>
    p ∈ v.members ∧ caller.Fits v p requests.length ∧ ∀ r ∈ requests, good p r
  | .asking caller requests request next _ =>
    p ∈ v.members ∧ caller.Fits v p (requests.length + 1) ∧
      (∀ r ∈ request :: requests, good p r) ∧ v.forwards p request next
  | .replying caller requests request reply =>
    p ∈ v.members ∧ caller.Fits v p (requests.length + 1) ∧
      (∀ r ∈ request :: requests, good p r) ∧ v.Reaches request p reply

/-- What holds of the servers and the clients. -/
structure Servers.Sound (s : Servers σ ρ α) : Prop where
  fits : ∀ p, (s.activity p).Fits v good p
  pending : ∀ x ∈ s.pending, x.1 ∈ v.members ∧ ∀ r ∈ x.2, good x.1 r
  ended : ∀ x ∈ s.ended, ∀ y ∈ x.2, v.Reaches y.1 x.1 y.2
  linked : s.Linked

variable {v good}

/-- A busy server is a member. -/
theorem Activity.Fits.member {p : σ} {activity : Activity σ ρ α} (fits : activity.Fits v good p)
    (busy : activity ≠ .idle) : p ∈ v.members := by
  cases activity with
  | idle => exact absurd rfl busy
  | receiving caller requests => exact fits.1
  | asking caller requests request next accepted => exact fits.1
  | replying caller requests request reply => exact fits.1

/-- Clients that connect. -/
theorem Servers.Sound.start {sessions : List (σ × List ρ)}
    (suits : ∀ x ∈ sessions, x.1 ∈ v.members ∧ ∀ r ∈ x.2, good x.1 r) :
    (Service.start sessions : Servers σ ρ α).Sound v good where
  fits _ := trivial
  pending := suits
  ended x inside := by cases inside
  linked p q r := by
    constructor
    · intro none
      cases none
    · intro none
      cases none

variable [DecidableEq σ] {s s' : Servers σ ρ α} {rank : σ → ℕ} {weight : σ → ρ → ℕ}

/-- One server does something that fits. -/
theorem Servers.set_fits (fits : ∀ q, (s.activity q).Fits v good q) {p : σ}
    {activity : Activity σ ρ α} (own : activity.Fits v good p) (q : σ) :
    ((s.set p activity).activity q).Fits v good q := by
  rw [Servers.set_activity]
  by_cases same : q = p
  · rw [if_pos same, same]
    exact own
  · rw [if_neg same]
    exact fits q

/-- Every step keeps what the servers know. -/
theorem Service.Step.sound (step : v.Step s s') (ranked : v.Ranked good rank weight)
    (sound : s.Sound v good) : s'.Sound v good := by
  have linked := step.linked sound.linked
  cases step with
  | @accept p requests before after member free waits =>
    have suits := sound.pending (p, requests) (by rw [waits]; simp)
    have others : ∀ x ∈ before ++ after, x ∈ s.pending := by
      intro x inside
      rw [waits]
      simp only [List.mem_append, List.mem_cons] at inside ⊢
      tauto
    have own : (Activity.receiving (.client []) requests : Activity σ ρ α).Fits v good p :=
      ⟨member, fun x inside => absurd inside List.not_mem_nil, suits.2⟩
    exact ⟨Servers.set_fits sound.fits own, fun x inside => sound.pending x (others x inside),
      sound.ended, linked⟩
  | @connect p q caller requests request member free asks =>
    have fits := sound.fits q
    rw [asks] at fits
    obtain ⟨live, waiting, suits, forwards⟩ := fits
    have taken := ranked.suits q live request (suits request List.mem_cons_self) p forwards
    have own : (Activity.receiving (.server q) [request] : Activity σ ρ α).Fits v good p :=
      ⟨member, le_rfl, fun r inside => by rwa [List.mem_singleton.mp inside]⟩
    have asker : (Activity.asking caller requests request p true).Fits v good q :=
      ⟨live, waiting, suits, forwards⟩
    exact ⟨Servers.set_fits (Servers.set_fits sound.fits asker) own, sound.pending, sound.ended,
      linked⟩
  | @answer p caller requests request reply receives answers =>
    have fits := sound.fits p
    rw [receives] at fits
    have own : (Activity.replying caller requests request reply).Fits v good p :=
      ⟨fits.1, fits.2.1, fits.2.2, .answer answers⟩
    exact ⟨Servers.set_fits sound.fits own, sound.pending, sound.ended, linked⟩
  | @forward p next caller requests request receives forwards =>
    have fits := sound.fits p
    rw [receives] at fits
    have own : (Activity.asking caller requests request next false).Fits v good p :=
      ⟨fits.1, fits.2.1, fits.2.2, forwards⟩
    exact ⟨Servers.set_fits sound.fits own, sound.pending, sound.ended, linked⟩
  | @reply p answered requests request reply replies =>
    have fits := sound.fits p
    rw [replies] at fits
    obtain ⟨live, true, suits, reaches⟩ := fits
    have own : (Activity.receiving (.client (answered ++ [(request, reply)])) requests).Fits
        v good p := by
      refine ⟨live, fun x inside => ?_, fun r inside => suits r (List.mem_cons_of_mem _ inside)⟩
      rcases List.mem_append.mp inside with earlier | now
      · exact true x earlier
      · rw [List.mem_singleton.mp now]
        exact reaches
    exact ⟨Servers.set_fits sound.fits own, sound.pending, sound.ended, linked⟩
  | @pass p q caller requests request reply replies asks =>
    have fits := sound.fits p
    have asking := sound.fits q
    rw [replies] at fits
    rw [asks] at asking
    obtain ⟨live, waiting, suits, forwards⟩ := asking
    have asker : (Activity.replying caller requests request reply).Fits v good q :=
      ⟨live, waiting, suits, .forward forwards fits.2.2.2⟩
    have own : (Activity.receiving (.server q) [] : Activity σ ρ α).Fits v good p :=
      ⟨fits.1, Nat.zero_le 1, fun r inside => by cases inside⟩
    exact ⟨Servers.set_fits (Servers.set_fits sound.fits asker) own, sound.pending, sound.ended,
      linked⟩
  | @leave p answered receives =>
    have fits := sound.fits p
    rw [receives] at fits
    refine ⟨Servers.set_fits sound.fits trivial, sound.pending, fun x inside => ?_, linked⟩
    rcases List.mem_cons.mp inside with rfl | earlier
    · exact fits.2.1
    · exact sound.ended x earlier
  | close receives =>
    exact ⟨Servers.set_fits sound.fits trivial, sound.pending, sound.ended, linked⟩

end

end TinyTools.Lib
