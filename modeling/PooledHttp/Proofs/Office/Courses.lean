import PooledHttp.Office
import PooledHttp.Proofs.Handler.Order

/-! The courses of the requests in an office. Whatever happens in between, the calls of one request
that got their answers are, in their order, what the handling of a request asks for; and a worker's
counters are what it has counted, one request after the other. -/

namespace PooledHttp

/-- Of each element this holds, given those before it. -/
def Each {α : Type} (P : List α → α → Prop) (xs : List α) : Prop :=
  ∀ front x back, xs = front ++ x :: back → P front x

theorem Each.concat {α : Type} {P : List α → α → Prop} {xs : List α} {x : α} (h : Each P xs)
    (hx : P xs x) : Each P (xs ++ [x]) := by
  intro front y back hsplit
  -- either `y` is the new last element, or the new one stands behind it
  rcases List.eq_nil_or_concat back with rfl | ⟨init, last, rfl⟩
  · obtain ⟨rfl, he⟩ := List.append_inj' hsplit rfl
    cases he
    exact hx
  · rw [List.concat_eq_append, ← List.cons_append, ← List.append_assoc] at hsplit
    obtain ⟨rfl, -⟩ := List.append_inj' hsplit rfl
    exact h front y init rfl

theorem each_nil {α : Type} (P : List α → α → Prop) : Each P [] := by
  intro front x back hsplit
  cases front <;> cases hsplit

namespace Activity

/-- What is left of a request. -/
def left? : Activity → Option Handling
  | busy left => some left
  | copying next => some (.ask .copyLog next)
  | logging entry next => some (.ask (.appendLog entry) next)
  | idle | lost => none

end Activity

namespace Note

variable {ν : Type} [DecidableEq ν]

/-- The kind under which a worker counted a request, if that is what it did. -/
def counted? (worker : ν) (note : Note ν) : Option (Option Served) :=
  match note.reply with
  | ⟨.desk (.count kind), _⟩ => if note.errand.1 = worker then some kind else none
  | _ => none

def kindsOf (worker : ν) (notes : List (Note ν)) : List (Option Served) :=
  notes.filterMap (counted? worker)

def repliesTo (errand : Errand ν) (notes : List (Note ν)) : List (Reply HandlerCall.Answer) :=
  (notes.filter (·.errand = errand)).map reply

theorem kindsOf_append (worker : ν) (notes later : List (Note ν)) :
    kindsOf worker (notes ++ later) = kindsOf worker notes ++ kindsOf worker later :=
  List.filterMap_append

theorem kindsOf_other {worker : ν} {note : Note ν} (h : note.errand.1 ≠ worker) :
    kindsOf worker [note] = [] := by
  refine List.filterMap_cons_none ?_
  rw [counted?]
  split
  · exact if_neg h
  · rfl

theorem kindsOf_count (errand : Errand ν) (kind : Option Served) (tally : Tally) :
    kindsOf errand.1 [⟨errand, ⟨.desk (.count kind), tally⟩⟩] = [kind] :=
  List.filterMap_cons_some (if_pos rfl)

theorem repliesTo_append (errand : Errand ν) (notes later : List (Note ν)) :
    repliesTo errand (notes ++ later) = repliesTo errand notes ++ repliesTo errand later := by
  rw [repliesTo, List.filter_append, List.map_append]
  rfl

theorem repliesTo_own (note : Note ν) : repliesTo note.errand [note] = [note.reply] := by
  simp [repliesTo]

theorem repliesTo_other {errand : Errand ν} {note : Note ν} (h : note.errand ≠ errand) :
    repliesTo errand [note] = [] := by
  simp [repliesTo, h]

theorem mem_of_mem_repliesTo {errand : Errand ν} {notes : List (Note ν)}
    {reply : Reply HandlerCall.Answer} (h : reply ∈ repliesTo errand notes) :
    ⟨errand, reply⟩ ∈ notes := by
  obtain ⟨note, hmem, rfl⟩ := List.mem_map.mp h
  obtain ⟨hnote, he⟩ := List.mem_filter.mp hmem
  rw [← of_decide_eq_true he]
  exact hnote

theorem mem_repliesTo {errand : Errand ν} {notes : List (Note ν)}
    {reply : Reply HandlerCall.Answer} (h : ⟨errand, reply⟩ ∈ notes) :
    reply ∈ repliesTo errand notes :=
  List.mem_map.mpr ⟨_, List.mem_filter.mpr ⟨h, decide_eq_true rfl⟩, rfl⟩

/-- A count shows what the worker had counted before and this one request more. -/
def ShowsCount (start : ν → Tally) (before : List (Note ν)) (note : Note ν) : Prop :=
  ∀ kind tally, note.reply = ⟨.desk (.count kind), tally⟩ →
    (kindsOf note.errand.1 before ++ [kind]).foldlM Tally.count (start note.errand.1) = .ok tally

end Note

namespace Office

open Note

variable {ν : Type} [DecidableEq ν]

@[simp] theorem put_station_self (o : Office ν) (worker : ν) (s : Station) :
    (o.put worker s).station worker = s := if_pos rfl

theorem put_station_ne (o : Office ν) {worker other : ν} (s : Station) (h : other ≠ worker) :
    (o.put worker s).station other = o.station other := if_neg h

theorem put_begun (o : Office ν) {worker : ν} {s : Station}
    (h : s.begun = (o.station worker).begun) (other : ν) :
    ((o.put worker s).station other).begun = (o.station other).begun := by
  by_cases he : other = worker
  · rw [he, put_station_self, h]
  · rw [put_station_ne o s he]

/-- Each request is on its course, and each worker has counted what it has counted. -/
structure Courses (start : ν → Tally) (notes : List (Note ν)) (o : Office ν) : Prop where
  unbegun : ∀ errand : Errand ν, (o.station errand.1).begun < errand.2 → repliesTo errand notes = []
  leads : ∀ errand : Errand ν, errand.2 ≤ (o.station errand.1).begun → ∃ timing last,
    (Handling.answer o.root timing).Leads (repliesTo errand notes) last ∧
      (errand.2 = (o.station errand.1).begun →
        ∀ left ∈ (o.station errand.1).activity.left?, last = left)
  tallies : ∀ worker,
    (kindsOf worker notes).foldlM Tally.count (start worker) = .ok (o.station worker).desk.tally
  shown : Each (ShowsCount start) notes

variable {start : ν → Tally} {notes : List (Note ν)} {o : Office ν} {worker : ν} {s : Station}

theorem courses_start (root : String) (start : ν → Tally) (log : LogBuffer) :
    Courses start [] (Office.start root start log) :=
  ⟨fun _ _ => rfl, fun _ _ => ⟨⟨.epoch, .zero⟩, _, .refl _, fun _ => nofun⟩, fun _ => rfl,
    each_nil _⟩

theorem Courses.withLog (h : Courses start notes o) (log : LogRoom (Errand ν)) :
    Courses start notes { o with log } := ⟨h.unbegun, h.leads, h.tallies, h.shown⟩

theorem Courses.put_tallies (h : Courses start notes o)
    (htally : s.desk.tally = (o.station worker).desk.tally) (other : ν) :
    (kindsOf other notes).foldlM Tally.count (start other) =
      .ok ((o.put worker s).station other).desk.tally := by
  by_cases he : other = worker
  · rw [he, put_station_self, htally]
    exact h.tallies worker
  · rw [put_station_ne o s he]
    exact h.tallies other

/-- A worker that does nothing else goes on to wait, or stops. -/
theorem Courses.turn (h : Courses start notes o) (hbegun : s.begun = (o.station worker).begun)
    (htally : s.desk.tally = (o.station worker).desk.tally)
    (hleft : ∀ left ∈ s.activity.left?, left ∈ (o.station worker).activity.left?) :
    Courses start notes (o.put worker s) := by
  have hnumber := put_begun o hbegun
  refine ⟨?_, ?_, h.put_tallies htally, h.shown⟩
  · intro errand hlt
    rw [hnumber] at hlt
    exact h.unbegun errand hlt
  · intro errand hle
    rw [hnumber] at hle ⊢
    obtain ⟨timing, last, hleads, hlast⟩ := h.leads errand hle
    refine ⟨timing, last, hleads, fun hnow left hmem => hlast hnow left ?_⟩
    by_cases he : errand.1 = worker
    · rw [he, put_station_self] at hmem
      rw [he]
      exact hleft left hmem
    · rwa [put_station_ne o s he] at hmem

theorem Courses.takeUp (h : Courses start notes o) (timing : Timing)
    (hbegun : s.begun = (o.station worker).begun + 1)
    (htally : s.desk.tally = (o.station worker).desk.tally)
    (hactivity : s.activity = .busy (Handling.answer o.root timing)) :
    Courses start notes (o.put worker s) := by
  refine ⟨?_, ?_, h.put_tallies htally, h.shown⟩
  · intro errand hlt
    by_cases he : errand.1 = worker
    · rw [he, put_station_self, hbegun] at hlt
      exact h.unbegun errand (by rw [he]; omega)
    · rw [put_station_ne o s he] at hlt
      exact h.unbegun errand hlt
  · intro errand hle
    by_cases he : errand.1 = worker
    · rw [he, put_station_self, hbegun] at hle ⊢
      by_cases hnow : errand.2 = (o.station worker).begun + 1
      · rw [h.unbegun errand (by rw [he]; omega), hactivity]
        refine ⟨timing, _, .refl _, fun _ left hmem => ?_⟩
        exact Option.some.inj hmem
      · obtain ⟨timing, last, hleads, -⟩ := h.leads errand (by rw [he]; omega)
        exact ⟨timing, last, hleads, fun hn => absurd hn hnow⟩
    · rw [put_station_ne o s he] at hle ⊢
      exact h.leads errand hle

/-- An answer that a worker gets is the answer to what its request asked. -/
theorem Courses.reply (h : Courses start notes o) {question : HandlerCall}
    {next : question.Answer → Handling} (answer : question.Answer)
    (hasks : .ask question next ∈ (o.station worker).activity.left?)
    (hbegun : s.begun = (o.station worker).begun)
    (hleft : s.activity.left? = some (next answer))
    (htally : (kindsOf worker [⟨(worker, s.begun), ⟨question, answer⟩⟩]).foldlM Tally.count
      (o.station worker).desk.tally = .ok s.desk.tally)
    (hshown : ∀ kind tally, (⟨question, answer⟩ : Reply HandlerCall.Answer) =
      ⟨.desk (.count kind), tally⟩ → s.desk.tally = tally) :
    Courses start (notes ++ [⟨(worker, s.begun), ⟨question, answer⟩⟩]) (o.put worker s) := by
  have hnumber := put_begun o hbegun
  have hfold : (kindsOf worker (notes ++ [⟨(worker, s.begun), ⟨question, answer⟩⟩])).foldlM
      Tally.count (start worker) = .ok s.desk.tally := by
    rw [kindsOf_append, List.foldlM_append, h.tallies worker]
    exact htally
  refine ⟨?_, ?_, ?_, ?_⟩
  -- a request that is still to come is not this one, so it has no answers yet
  · intro errand hlt
    rw [hnumber] at hlt
    have hne : ((worker, s.begun) : Errand ν) ≠ errand := by
      rintro rfl
      exact absurd hlt (by rw [hbegun]; exact Nat.lt_irrefl _)
    rw [repliesTo_append, repliesTo_other hne, h.unbegun errand hlt]
    rfl
  -- this request goes one reply further; all others, also older ones of this worker, stay
  · intro errand hle
    rw [hnumber] at hle ⊢
    obtain ⟨timing, last, hleads, hlast⟩ := h.leads errand hle
    by_cases he : ((worker, s.begun) : Errand ν) = errand
    · subst he
      refine ⟨timing, next answer, ?_, ?_⟩
      · have hown := repliesTo_own (⟨(worker, s.begun), ⟨question, answer⟩⟩ : Note ν)
        rw [hlast hbegun _ hasks] at hleads
        rw [repliesTo_append, hown]
        exact hleads.concat answer
      · intro _ left hmem
        rw [put_station_self, hleft] at hmem
        exact Option.some.inj hmem
    · rw [repliesTo_append, repliesTo_other he, List.append_nil]
      refine ⟨timing, last, hleads, fun hnow left hmem => ?_⟩
      have hother : errand.1 ≠ worker := by
        intro hw
        exact he (Prod.ext hw.symm (by rw [hnow, hw, hbegun]))
      rw [put_station_ne o s hother] at hmem
      exact hlast hnow left hmem
  · intro other
    by_cases he : other = worker
    · rw [he, put_station_self]
      exact hfold
    · rw [put_station_ne o s he, kindsOf_append, kindsOf_other fun hw => he hw.symm, List.append_nil]
      exact h.tallies other
  · refine h.shown.concat ?_
    intro kind tally hreply
    rw [hshown kind tally hreply, show (⟨(worker, s.begun), ⟨question, answer⟩⟩ : Note ν) =
      ⟨(worker, s.begun), ⟨.desk (.count kind), tally⟩⟩ by rw [← hreply], kindsOf_append,
      kindsOf_count (worker, s.begun) kind tally] at hfold
    exact hfold

end Office

end PooledHttp
