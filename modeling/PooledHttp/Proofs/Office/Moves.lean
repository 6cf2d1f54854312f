import PooledHttp.Proofs.Office.Coherence

/-! A run as the workers see it. Whatever happens around the log, a worker takes up a request, goes on
with an answer to what its request asked, waits for the log, or ends its request. -/

namespace PooledHttp

theorem HandlerCall.appendLog_ne_count (entry : Bytes) (kind : Option Served) :
    HandlerCall.appendLog entry ≠ .desk (.count kind) := by
  intro h
  cases h

theorem HandlerCall.copyLog_ne_count (kind : Option Served) :
    HandlerCall.copyLog ≠ .desk (.count kind) := by
  intro h
  cases h

/-- A count shows what the counters have become, and nothing else changes them. -/
inductive Counted : Reply HandlerCall.Answer → Tally → Tally → Prop
  | count {kind : Option Served} {t next : Tally} (h : t.count kind = .ok next) :
    Counted ⟨.desk (.count kind), next⟩ t next
  | other {call : HandlerCall} (answer : call.Answer) (t : Tally)
    (h : ∀ kind, call ≠ .desk (.count kind)) : Counted ⟨call, answer⟩ t t

theorem Counted.of_count {kind : Option Served} {shown t next : Tally}
    (h : Counted ⟨.desk (.count kind), shown⟩ t next) : t.count kind = .ok next := by
  cases h with
  | count h => exact h
  | other _ _ h => exact absurd rfl (h kind)

theorem Counted.eq_of_other {call : HandlerCall} {answer : call.Answer} {t next : Tally}
    (h : Counted ⟨call, answer⟩ t next) (hne : ∀ kind, call ≠ .desk (.count kind)) : next = t := by
  cases h with
  | count _ => exact absurd rfl (hne _)
  | other => rfl

theorem Desk.perform_counted {machine : Machine} {desk next : Desk} {call : DeskCall}
    {answer : call.Answer} (h : desk.perform machine call = .ok (answer, next)) :
    Counted ⟨.desk call, answer⟩ desk.tally next.tally := by
  rcases Desk.perform_tally h with ⟨kind, tally, he, hcount, htally⟩ | ⟨hne, htally⟩
  · cases he
    rw [htally]
    exact .count hcount
  · rw [htally]
    exact .other answer _ fun kind he => hne kind (HandlerCall.desk.inj he)

namespace Office

variable {ν : Type} [DecidableEq ν]

/-- What a run is to the workers, with the answers that they got. -/
inductive Moves : Office ν → List (Note ν) → Office ν → Prop
  | aside (o : Office ν) (log : LogRoom (Errand ν)) : Moves o [] { o with log }
  | turn (o : Office ν) {worker : ν} {s : Station}
    (htally : s.desk.tally = (o.station worker).desk.tally)
    (hleft : ∀ left ∈ s.activity.left?, left ∈ (o.station worker).activity.left?)
    (hidle : s.activity = .idle → ∃ status, .done status ∈ (o.station worker).activity.left?) :
    Moves o [] (o.put worker s)
  | takeUp (o : Office ν) {worker : ν} {s : Station} (timing : Timing)
    (hidle : (o.station worker).activity = .idle)
    (htally : s.desk.tally = (o.station worker).desk.tally)
    (hactivity : s.activity = .busy (Handling.answer o.root timing)) : Moves o [] (o.put worker s)
  | reply (o : Office ν) {worker : ν} {s : Station} {question : HandlerCall}
    {next : question.Answer → Handling} {answer : question.Answer}
    (hasks : .ask question next ∈ (o.station worker).activity.left?)
    (hactivity : s.activity = .busy (next answer))
    (hcounted : Counted ⟨question, answer⟩ (o.station worker).desk.tally s.desk.tally) :
    Moves o [⟨(worker, (o.station worker).begun), ⟨question, answer⟩⟩] (o.put worker s)
  | trans {o mid next : Office ν} {notes later : List (Note ν)} (h : Moves o notes mid)
    (hlater : Moves mid later next) : Moves o (notes ++ later) next

variable {o : Office ν} {worker : ν}

theorem Moves.stay (o : Office ν) : Moves o [] o := .aside o o.log

theorem hear_moves (o : Office ν) (event : LogEvent (Errand ν)) :
    Moves o (o.hear event).2.toList (o.hear event).1 := by
  cases event with
  | appended errand result =>
    cases ha : (o.station errand.1).activity with
    | logging entry next =>
      by_cases hb : (o.station errand.1).begun = errand.2
      · have hasks : .ask (.appendLog entry) next ∈ (o.station errand.1).activity.left? := by
          rw [ha]
          rfl
        have hmove := Moves.reply o
          (s := { o.station errand.1 with activity := .busy (next result) }) hasks rfl
          (@Counted.other (.appendLog entry) result _ (HandlerCall.appendLog_ne_count entry))
        rw [hear_appended hb ha, Option.toList_some]
        rwa [hb] at hmove
      · simp only [hear, ha, if_neg hb]
        exact .stay o
    | idle | busy | copying | lost =>
      simp only [hear, ha]
      exact .stay o
  | looked errand bytes length =>
    rcases hear_looked o errand bytes length with hmissed | ⟨next, hb, ha, hheard⟩
    · rw [hmissed]
      exact .stay o
    · have hasks : .ask .copyLog next ∈ (o.station errand.1).activity.left? := by
        rw [ha]
        rfl
      have hmove := Moves.reply o
        (s := { o.station errand.1 with activity := .busy (next bytes) }) hasks rfl
        (@Counted.other .copyLog bytes _ HandlerCall.copyLog_ne_count)
      rw [hheard, Option.toList_some]
      rwa [hb] at hmove

theorem consult_moves (o : Office ν) (action : LogAction (Errand ν)) :
    Moves o (o.consult action).2.toList (o.consult action).1 := by
  rcases hact : o.log.act action with ⟨log, _ | event⟩
  · simp only [consult, hact]
    exact .aside o log
  · simp only [consult, hact]
    exact .trans (.aside o log) (hear_moves { o with log } event)

theorem proceed_moves (o : Office ν) (worker : ν) (machine : Machine) :
    Moves o (o.proceed worker machine).2.toList (o.proceed worker machine).1 := by
  rcases ha : (o.station worker).activity with _ | left | _ | _ | _
  · simp only [proceed, ha]
    exact .stay o
  · cases left with
    | done status =>
      simp only [proceed, ha]
      exact .turn o rfl (by rintro _ ⟨⟩) fun _ => ⟨status, by rw [ha]; rfl⟩
    | ask call next =>
      cases call with
      | desk call =>
        rcases hp : (o.station worker).desk.perform machine call with e | ⟨answer, desk⟩
        · simp only [proceed, ha, hp]
          exact .turn o rfl (by rintro _ ⟨⟩) (by rintro ⟨⟩)
        · simp only [proceed, ha, hp]
          exact .reply o (by rw [ha]; rfl) rfl (Desk.perform_counted hp)
      -- waiting for the log is a turn of its own, and what is heard of the log a step behind it
      | copyLog =>
        have hwaits : Moves o []
            (o.put worker { o.station worker with activity := .copying next }) :=
          .turn o rfl (by rw [ha]; exact fun _ he => he) (by rintro ⟨⟩)
        have hmove := hwaits.trans (consult_moves _ (.look (worker, (o.station worker).begun)))
        simp only [proceed, ha]
        exact hmove
      | appendLog entry =>
        have hwaits : Moves o []
            (o.put worker { o.station worker with activity := .logging entry next }) :=
          .turn o rfl (by rw [ha]; exact fun _ he => he) (by rintro ⟨⟩)
        have hmove :=
          hwaits.trans (consult_moves _ (.append (worker, (o.station worker).begun) entry))
        simp only [proceed, ha]
        exact hmove
  · simp only [proceed, ha]
    exact .stay o
  · simp only [proceed, ha]
    exact .stay o
  · simp only [proceed, ha]
    exact .stay o

theorem act_moves (o : Office ν) (action : OfficeAction ν) :
    Moves o (o.act action).2.toList (o.act action).1 := by
  cases action with
  | takeUp worker timing incoming =>
    cases ha : (o.station worker).activity with
    | idle =>
      simp only [act, Office.takeUp, ha]
      exact .takeUp o timing ha rfl rfl
    | busy | copying | logging | lost =>
      simp only [act, Office.takeUp, ha]
      exact .stay o
  | proceed worker machine => exact proceed_moves o worker machine
  | inLog action =>
    cases hc : action.isCall with
    | true =>
      simp only [act, hc, if_true]
      exact .stay o
    | false =>
      simp only [act, hc, Bool.false_eq_true, if_false]
      exact consult_moves o action

theorem after_moves (o : Office ν) (actions : List (OfficeAction ν)) :
    Moves o (o.history actions) (o.after actions) := by
  induction actions generalizing o with
  | nil => exact .stay o
  | cons action actions ih => exact .trans (act_moves o action) (ih _)

end Office

end PooledHttp
