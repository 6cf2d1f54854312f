import PooledHttp.Proofs.Handler.Order
import PooledHttp.Proofs.Http.Framing

/-! Whatever a request says, and whatever the files, the programs and the log say to it: what is sent is
one answer, and it is framed. Nothing of it comes from outside but its body. -/

namespace PooledHttp

namespace Handling

variable {root : String} {timing : Timing} {draft : Draft} {status : Status}
  {replies : List (Reply HandlerCall.Answer)}

def isSend : HandlerCall → Bool
  | .desk (.send _) => true
  | _ => false

theorem write_done {response : Response}
    (h : (write response).Leads replies (.done (some status))) :
    replies = [⟨.desk (.send response), ()⟩] ∧ status = response.status := by
  rcases h.ask_cases with ⟨-, hlast⟩ | ⟨u, rest, rfl, hrest⟩
  · cases hlast
  · obtain ⟨rfl, hlast⟩ := hrest.done_cases
    cases hlast
    exact ⟨rfl, rfl⟩

theorem finish_done (h : (finish timing draft).Leads replies (.done (some status))) :
    ∃ earlier tally, replies = earlier ++ [⟨.desk (.send (draft.answer timing tally)), ()⟩] ∧
      (∀ reply ∈ earlier, isSend reply.1 = false) ∧ status = (draft.answer timing tally).status := by
  rcases h.ask_cases with ⟨-, hlast⟩ | ⟨tally, rest, rfl, hrest⟩
  · cases hlast
  · split at hrest
    · rcases hrest.ask_cases with ⟨-, hlast⟩ | ⟨result, sent, rfl, hsent⟩
      · cases hlast
      · obtain ⟨rfl, hstatus⟩ := write_done hsent
        refine ⟨[⟨.desk (.count draft.kind), tally⟩, ⟨.appendLog _, result⟩], tally, rfl, ?_, hstatus⟩
        exact List.forall_mem_cons.mpr ⟨rfl, List.forall_mem_singleton.mpr rfl⟩
    · obtain ⟨rfl, hstatus⟩ := write_done hrest
      exact ⟨[⟨.desk (.count draft.kind), tally⟩], tally, rfl,
        List.forall_mem_singleton.mpr rfl, hstatus⟩

theorem silent_not_done : ¬ silent.Leads replies (.done (some status)) := by
  intro h
  rcases h.ask_cases with ⟨-, hlast⟩ | ⟨tally, rest, rfl, hrest⟩
  · cases hlast
  · obtain ⟨-, hlast⟩ := hrest.done_cases
    cases hlast

/-- A request that ends with a status has sent one answer, at last, which has that status. -/
theorem answer_done (h : (answer root timing).Leads replies (.done (some status))) :
    ∃ earlier draft tally,
      replies = earlier ++ [⟨.desk (.send (Draft.answer timing tally draft)), ()⟩] ∧
      (∀ reply ∈ earlier, isSend reply.1 = false) ∧ draft.response.IsBuilt ∧
      status = (draft.answer timing tally).status := by
  rcases h.ask_cases with ⟨-, hlast⟩ | ⟨received, rest, rfl, hrest⟩
  · cases hlast
  · cases received with
    | error cause => exact absurd hrest silent_not_done
    | ok raw =>
      dsimp only at hrest
      split at hrest
      · exact absurd hrest silent_not_done
      · rcases hrest.bind_cases with ⟨mid, -, hlast⟩ | ⟨asked, later, draft, rfl, hasked, hlater⟩
        · cases mid with
          | done draft => cases hlast
          | ask question next => cases hlast
        · obtain ⟨earlier, tally, rfl, hearlier, hstatus⟩ := finish_done hlater
          have hbuilt := (Drafts.made hasked).isBuilt
          have hnone : ∀ reply ∈ asked, isSend reply.1 = false := by
            intro reply hmem
            obtain ⟨question, hquestion⟩ := (drafting_asks _).of_leads hasked reply hmem
            rw [hquestion]
            cases question <;> rfl
          refine ⟨⟨.desk .receive, .ok raw⟩ :: (asked ++ earlier), draft, tally, ?_, ?_, hbuilt,
            hstatus⟩
          · rw [List.cons_append, List.append_assoc]
          · exact List.forall_mem_cons.mpr ⟨rfl, List.forall_mem_append.mpr ⟨hnone, hearlier⟩⟩

end Handling

/-- Every answer is framed. Call by call, whatever is said to a request in between: if it ends with a
status, then it has sent one answer, at last, and this is framed, with that status. And what one
request writes while nobody else is at the log is framed, with the status that comes back. -/
theorem answers_framed (root : String) (timing : Timing) :
    (∀ replies status, (Handling.answer root timing).Leads replies (.done (some status)) →
      ∃ earlier response, replies = earlier ++ [⟨.desk (.send response), ()⟩] ∧
        (∀ reply ∈ earlier, Handling.isSend reply.1 = false) ∧
        ∃ head body fields, Response.Framed status response.render head body fields) ∧
    ∀ machine allocate tally log events exchange rest status,
      respond ⟨machine, root⟩ allocate timing tally log events = (.ok exchange, rest) →
      exchange.status = some status →
      ∃ head body fields, Response.Framed status exchange.output head body fields := by
  refine ⟨fun replies status h => ?_, ?_⟩
  · obtain ⟨earlier, draft, tally, rfl, hearlier, hbuilt, rfl⟩ := Handling.answer_done h
    obtain ⟨head, body, fields, hframed⟩ := hbuilt.framed timing tally
    refine ⟨earlier, draft.answer timing tally, rfl, hearlier, head, body, fields, ?_⟩
    rwa [show (draft.answer timing tally).status = draft.response.status from
      Response.setHeaders_status _ _]
  · intro machine allocate tally log events exchange rest status h hstatus
    rw [respond_eq] at h
    cases hd : Site.draft? ⟨machine, root⟩ log.bytes events with
    | none =>
      cases hc : tally.count none with
      | error e => simp [hd, hc, Except.map] at h
      | ok next =>
        simp only [hd, hc, Option.bind_none, Except.map, Prod.mk.injEq, Except.ok.injEq] at h
        rw [← h.1] at hstatus
        cases hstatus
    | some draft =>
      cases hc : tally.count draft.kind with
      | error e => simp [hd, hc, Except.map] at h
      | ok next =>
        simp only [hd, hc, Option.bind_some, Except.map, Prod.mk.injEq, Except.ok.injEq] at h
        rw [← h.1] at hstatus ⊢
        cases hstatus
        exact (Site.draft?_some hd).2.1.isBuilt.framed timing next

/-- A request that is no text, and what is answered to it. -/
theorem answers_framed_not_utf8 :
    let machine : Machine := ⟨FileTree.empty, []⟩
    let draft := Draft.ofError .requestLine
    let answer := draft.answer ⟨.epoch, .zero⟩ ⟨7, 1, 0, 0, 0⟩
    let exchange : Exchange := ⟨some .badRequest, answer.render, ⟨7, 1, 0, 0, 0⟩, ⟨[], 1⟩⟩
    (Handling.answer "/site" ⟨.epoch, .zero⟩).Leads
        [⟨.desk .receive, .ok [0xFF]⟩, ⟨.desk (.count none), ⟨7, 1, 0, 0, 0⟩⟩,
          ⟨.desk (.send answer), ()⟩] (.done (some .badRequest)) ∧
      respond ⟨machine, "/site"⟩ (fun _ => none) ⟨.epoch, .zero⟩ (Tally.start 7) ⟨[], 1⟩
        [.data [0xFF]] = (.ok exchange, []) ∧
      (∃ earlier response, [⟨.desk .receive, .ok [0xFF]⟩,
            ⟨.desk (.count none), ⟨7, 1, 0, 0, 0⟩⟩, ⟨.desk (.send answer), ()⟩] =
          earlier ++ [(⟨.desk (.send response), ()⟩ : Reply HandlerCall.Answer)] ∧
        (∀ reply ∈ earlier, Handling.isSend reply.1 = false) ∧
        ∃ head body fields, Response.Framed .badRequest response.render head body fields) ∧
      ∃ head body fields, Response.Framed .badRequest exchange.output head body fields := by
  intro machine draft answer exchange
  have hleads : (Handling.answer "/site" ⟨.epoch, .zero⟩).Leads
      [⟨.desk .receive, .ok [0xFF]⟩, ⟨.desk (.count none), ⟨7, 1, 0, 0, 0⟩⟩,
        ⟨.desk (.send answer), ()⟩] (.done (some .badRequest)) :=
    .reply (.reply (.reply (.refl _)))
  have hrespond : respond ⟨machine, "/site"⟩ (fun _ => none) ⟨.epoch, .zero⟩ (Tally.start 7) ⟨[], 1⟩
      [.data [0xFF]] = (.ok exchange, []) := by
    have hread : RequestReader.read [.data [0xFF]] = (.ok [0xFF], []) := by cbv
    have hparse : Request.parse [0xFF] = .error .requestLine := rfl
    have hdraft : Site.draft? ⟨machine, "/site"⟩ [] [.data [0xFF]] = some draft := by
      simp only [Site.draft?, hread, Draft.ofRaw, hparse, List.isEmpty_cons, Bool.false_eq_true,
        if_false]
      rfl
    have hcount : (Tally.start 7).count draft.kind = .ok ⟨7, 1, 0, 0, 0⟩ := rfl
    rw [respond_eq, hdraft, hread, Option.bind_some, hcount]
    rfl
  have hstatus : exchange.status = some .badRequest := rfl
  obtain ⟨hcalls, halone⟩ := answers_framed "/site" ⟨.epoch, .zero⟩
  exact ⟨hleads, hrespond, hcalls _ _ hleads, halone _ _ _ _ _ _ _ _ hrespond hstatus⟩

end PooledHttp
