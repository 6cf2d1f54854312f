import Mathlib.Data.List.Basic
import PooledHttp.Dialogue

/-! What a dialogue can come to: at once, where each question has an answer of its own, or reply by
reply, whoever answers and however long that takes. -/

namespace PooledHttp

variable {ι κ : Type} {Answer : ι → Type} {Other : κ → Type} {α β : Type}

namespace Dialogue

@[simp] theorem result_bind (answer : (question : ι) → Answer question) (d : Dialogue Answer α)
    (go : α → Dialogue Answer β) :
    (d.bind go).result answer = (go (d.result answer)).result answer := by
  induction d with
  | done result => rfl
  | ask question next ih => exact ih (answer question)

@[simp] theorem result_map (answer : (question : ι) → Answer question) (f : α → β)
    (d : Dialogue Answer α) : (d.map f).result answer = f (d.result answer) :=
  result_bind answer d _

@[simp] theorem result_relay (answer : (question : κ) → Other question) (word : ι → κ)
    (hear : (question : ι) → Other (word question) → Answer question) (d : Dialogue Answer α) :
    (d.relay word hear).result answer =
      d.result fun question => hear question (answer (word question)) := by
  induction d with
  | done result => rfl
  | ask question next ih => exact ih _

/-- After some replies this is what is left. -/
inductive Leads : Dialogue Answer α → List (Reply Answer) → Dialogue Answer α → Prop
  | refl (d : Dialogue Answer α) : Leads d [] d
  | reply {question : ι} {next : Answer question → Dialogue Answer α} {answer : Answer question}
    {replies : List (Reply Answer)} {last : Dialogue Answer α} (h : Leads (next answer) replies last) :
    Leads (.ask question next) (⟨question, answer⟩ :: replies) last

variable {d last : Dialogue Answer α} {replies : List (Reply Answer)}

theorem Leads.concat {question : ι} {next : Answer question → Dialogue Answer α}
    (h : Leads d replies (.ask question next)) (answer : Answer question) :
    Leads d (replies ++ [⟨question, answer⟩]) (next answer) := by
  generalize hmid : Dialogue.ask question next = mid at h
  induction h with
  | refl d =>
    subst hmid
    exact .reply (.refl _)
  | reply h ih => exact .reply (ih hmid)

theorem Leads.split {front back : List (Reply Answer)} {reply : Reply Answer}
    (h : Leads d (front ++ reply :: back) last) :
    ∃ next, Leads d front (.ask reply.1 next) ∧ Leads (next reply.2) back last := by
  induction front generalizing d with
  | nil =>
    cases h with
    | reply h => exact ⟨_, .refl _, h⟩
  | cons first front ih =>
    cases h with
    | reply h =>
      obtain ⟨next, hfront, hback⟩ := ih h
      exact ⟨next, .reply hfront, hback⟩

theorem Leads.done_cases {result : α} (h : Leads (.done result) replies last) :
    replies = [] ∧ last = .done result := by
  cases h
  exact ⟨rfl, rfl⟩

theorem Leads.ask_cases {question : ι} {next : Answer question → Dialogue Answer α}
    (h : Leads (.ask question next) replies last) :
    (replies = [] ∧ last = .ask question next) ∨ ∃ answer later,
      replies = ⟨question, answer⟩ :: later ∧ Leads (next answer) later last := by
  cases h with
  | refl => exact .inl ⟨rfl, rfl⟩
  | reply h => exact .inr ⟨_, _, rfl, h⟩

/-- Replies to two dialogues in a row belong to the first one, and then to the second. -/
theorem Leads.bind_cases {go : α → Dialogue Answer β} {last : Dialogue Answer β}
    (h : Leads (d.bind go) replies last) :
    (∃ mid, Leads d replies mid ∧ last = mid.bind go) ∨
      ∃ front back result, replies = front ++ back ∧ Leads d front (.done result) ∧
        Leads (go result) back last := by
  induction d generalizing replies with
  | done result => exact .inr ⟨[], replies, result, rfl, .refl _, h⟩
  | ask question next ih =>
    rcases h.ask_cases with ⟨rfl, rfl⟩ | ⟨answer, later, rfl, hnext⟩
    · exact .inl ⟨_, .refl _, rfl⟩
    · rcases ih answer hnext with ⟨mid, hmid, rfl⟩ | ⟨front, back, result, rfl, hfront, hback⟩
      · exact .inl ⟨mid, .reply hmid, rfl⟩
      · exact .inr ⟨_ :: front, back, result, rfl, .reply hfront, hback⟩

/-- A reply in one's own words to what was asked in another's. -/
def Relayed (word : ι → κ) (hear : (question : ι) → Other (word question) → Answer question)
    (outer : Reply Other) (inner : Reply Answer) : Prop :=
  ∃ answer, outer = ⟨word inner.1, answer⟩ ∧ inner.2 = hear inner.1 answer

/-- What was heard in one's own words was said in the other's. -/
theorem exists_relayed {word : ι → κ}
    {hear : (question : ι) → Other (word question) → Answer question} {outer : List (Reply Other)}
    {inner : List (Reply Answer)} (h : List.Forall₂ (Relayed word hear) outer inner)
    {heard : Reply Answer} (hmem : heard ∈ inner) :
    ∃ answer, ⟨word heard.1, answer⟩ ∈ outer ∧ heard.2 = hear heard.1 answer := by
  induction h with
  | nil => cases hmem
  | @cons said first outer inner hsaid hrest ih =>
    rcases List.mem_cons.mp hmem with rfl | hmem
    · obtain ⟨answer, rfl, hheard⟩ := hsaid
      exact ⟨answer, List.mem_cons_self, hheard⟩
    · obtain ⟨answer, hout, hheard⟩ := ih hmem
      exact ⟨answer, List.mem_cons_of_mem _ hout, hheard⟩

theorem Leads.relay_cases {word : ι → κ}
    {hear : (question : ι) → Other (word question) → Answer question}
    {replies : List (Reply Other)} {last : Dialogue Other α}
    (h : Leads (d.relay word hear) replies last) :
    ∃ inner mid, Leads d inner mid ∧ last = mid.relay word hear ∧
      List.Forall₂ (Relayed word hear) replies inner := by
  induction d generalizing replies with
  | done result =>
    obtain ⟨rfl, rfl⟩ := h.done_cases
    exact ⟨[], _, .refl _, rfl, .nil⟩
  | ask question next ih =>
    rcases h.ask_cases with ⟨rfl, rfl⟩ | ⟨answer, later, rfl, hnext⟩
    · exact ⟨[], _, .refl _, rfl, .nil⟩
    · obtain ⟨inner, mid, hmid, rfl, hrel⟩ := ih _ hnext
      exact ⟨_, mid, .reply hmid, rfl, .cons ⟨answer, rfl, rfl⟩ hrel⟩

/-- Whatever the answers, only such questions are put. -/
def Always (P : ι → Prop) : Dialogue Answer α → Prop
  | done _ => True
  | ask question next => P question ∧ ∀ answer, (next answer).Always P

variable {P Q : ι → Prop}

theorem Always.mono (h : d.Always P) (hpq : ∀ question, P question → Q question) : d.Always Q := by
  induction d with
  | done result => trivial
  | ask question next ih => exact ⟨hpq question h.1, fun answer => ih answer (h.2 answer)⟩

theorem Always.bind {go : α → Dialogue Answer β} (h : d.Always P)
    (hgo : ∀ result, (go result).Always P) : (d.bind go).Always P := by
  induction d with
  | done result => exact hgo result
  | ask question next ih => exact ⟨h.1, fun answer => ih answer (h.2 answer)⟩

theorem Always.relay {word : ι → κ}
    {hear : (question : ι) → Other (word question) → Answer question} {R : κ → Prop}
    (h : d.Always P) (hword : ∀ question, P question → R (word question)) :
    (d.relay word hear).Always R := by
  induction d with
  | done result => trivial
  | ask question next ih => exact ⟨hword question h.1, fun answer => ih _ (h.2 _)⟩

theorem Always.of_leads (h : d.Always P) (hl : Leads d replies last) :
    ∀ reply ∈ replies, P reply.1 := by
  induction hl with
  | refl d => exact fun _ hmem => nomatch hmem
  | reply hl ih =>
    intro reply hmem
    rcases List.mem_cons.mp hmem with rfl | hmem
    · exact h.1
    · exact ih (h.2 _) reply hmem

theorem Always.of_leads_ask {question : ι} {next : Answer question → Dialogue Answer α}
    (h : d.Always P) (hl : Leads d replies (.ask question next)) : P question := by
  generalize hlast : Dialogue.ask question next = last at hl
  induction hl with
  | refl d =>
    subst hlast
    exact h.1
  | reply hl ih => exact ih (h.2 _) hlast

/-- Whatever the answers, this is how it ends. -/
def Ends (P : α → Prop) : Dialogue Answer α → Prop
  | done result => P result
  | ask _ next => ∀ answer, (next answer).Ends P

theorem Ends.bind {go : α → Dialogue Answer β} {P : α → Prop} {R : β → Prop} (h : d.Ends P)
    (hgo : ∀ result, P result → (go result).Ends R) : (d.bind go).Ends R := by
  induction d with
  | done result => exact hgo result h
  | ask question next ih => exact fun answer => ih answer (h answer)

theorem Ends.map {f : α → β} {P : α → Prop} {R : β → Prop} (h : d.Ends P)
    (hf : ∀ result, P result → R (f result)) : (d.map f).Ends R :=
  h.bind hf

theorem Ends.relay {word : ι → κ}
    {hear : (question : ι) → Other (word question) → Answer question} {P : α → Prop}
    (h : d.Ends P) : (d.relay word hear).Ends P := by
  induction d with
  | done result => exact h
  | ask question next ih => exact fun answer => ih _ (h _)

theorem Ends.result {P : α → Prop} (h : d.Ends P) (answer : (question : ι) → Answer question) :
    P (d.result answer) := by
  induction d with
  | done result => exact h
  | ask question next ih => exact ih _ (h _)

theorem Ends.of_leads {P : α → Prop} {result : α} (h : d.Ends P)
    (hl : Leads d replies (.done result)) : P result := by
  generalize hlast : Dialogue.done result = last at hl
  induction hl with
  | refl d =>
    subst hlast
    exact h
  | reply hl ih => exact ih (h _) hlast

end Dialogue

end PooledHttp
