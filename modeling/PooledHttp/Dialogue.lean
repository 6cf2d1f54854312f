/-! A computation that puts questions to its surroundings, one after the other, and goes on with each
answer. Who answers is left open: a machine at once, or other threads in between. -/

namespace PooledHttp

inductive Dialogue {ι : Type} (Answer : ι → Type) (α : Type)
  | done (result : α)
  | ask (question : ι) (next : Answer question → Dialogue Answer α)

/-- A question with the answer that it got. -/
abbrev Reply {ι : Type} (Answer : ι → Type) := Sigma Answer

namespace Dialogue

variable {ι κ : Type} {Answer : ι → Type} {α β : Type}

def bind (d : Dialogue Answer α) (go : α → Dialogue Answer β) : Dialogue Answer β :=
  match d with
  | done result => go result
  | ask question next => ask question fun answer => (next answer).bind go

def map (f : α → β) (d : Dialogue Answer α) : Dialogue Answer β := d.bind fun result => done (f result)

/-- Puts the same questions to somebody else, in that one's words. -/
def relay {Other : κ → Type} (word : ι → κ) (hear : (question : ι) → Other (word question) → Answer question) :
    Dialogue Answer α → Dialogue Other α
  | done result => done result
  | ask question next => ask (word question) fun answer => (next (hear question answer)).relay word hear

/-- What comes out where each question has an answer of its own. -/
def result (answer : (question : ι) → Answer question) : Dialogue Answer α → α
  | done result => result
  | ask question next => (next (answer question)).result answer

end Dialogue

end PooledHttp
