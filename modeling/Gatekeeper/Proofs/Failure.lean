import Gatekeeper.Proofs.Decision

/-!
# How failures look

A list that fails does so for a cause, which the backend has reported or which is that the time is
up.  Whoever waits for the list is told an error that shows this cause, and shows it once: it makes
no difference whether the list was asked for by an update, by a decision without the cache or by a
fetch, nor how many share the fetch, though its failure is taken apart to be shared and put together
again for each of them.

* `Error.Shows` — an error shows a cause.
* `Makes.outcome_of_cause`, `Makes.cause_of_outcome` — failures become errors, and no others do.
* `Sees`, `ToldOnly` — a caller that has waited for a list to the end, and all that it is told.
* `FailsAlike`, `failures_alike` — failures look alike in any two runs.

Two engines are compared and not one with itself, because failures are to look alike on paths that
one engine cannot all take: a decision without a cache and a fetch are made under different
settings.
-/

set_option autoImplicit false

namespace Gatekeeper

open Engine

/-- The error says that the backend is unavailable, and says for what cause, once. -/
structure Error.Shows (e : Error) (cause : Cause) : Prop where
  kind : e.isBackendUnavailable = true
  text : e.text = "authorization backend unavailable: " ++ cause.text
  chain : e.chain = cause.chain

theorem Error.shows_cause (cause : Cause) : (backendUnavailable cause).Shows cause :=
  ⟨rfl, rfl, rfl⟩

namespace Engine

/-! ## What comes of a list

What a caller is told of a list that has failed depends on the cause and on nothing else. -/

section

variable {c : Id} {r : Request} {p : Principal} {o : Owner} {limit : Span} {ending : Ending}

/-- What a caller is told of a list that has failed. -/
theorem Makes.outcome_of_cause (h : Makes c r p .listing o) {cause : Cause}
    (hcause : ending.cause? o.operation limit = some cause) :
    r.outcome o limit ending = .failed (.backendUnavailable cause) := by
  cases h with
  | fetch e p a => exact outcome_eq_unavailable_iff.mpr hcause
  | list e p a => exact outcome_eq_unavailable_iff.mpr hcause
  | update p =>
    rcases ending with (S | cause' | _) | (b | cause' | _) | _ <;>
      simp_all [Ending.cause?, Request.outcome, Request.answer, Request.verdict]

/-- Whoever is told an error is told why the list has failed, or is denied by the list what it asked
for. -/
theorem Makes.cause_of_outcome (h : Makes c r p .listing o) (hlist : ∀ b, ending ≠ .checked b)
    {error : Error} (herror : r.outcome o limit ending = .failed error) :
    (∃ cause, ending.cause? o.operation limit = some cause ∧ error = .backendUnavailable cause)
      ∨ ∃ e a S, r = .enforce e p a ∧ ending = .listed (.value S)
        ∧ error = .permissionDenied p e a := by
  have hdenied : ∀ {e a S}, State.decision S e p a = .failed error →
      error = .permissionDenied p e a := by
    intro e a S hd
    rw [State.decision] at hd
    split at hd
    · cases hd
    · injection hd with hd
      exact hd.symm
  rcases ending with (S | cause | _) | b | _
  · cases h with
    | fetch e p a | list e p a => exact Or.inr ⟨e, a, S, rfl, rfl, hdenied herror⟩
    | update p => cases herror
  · have hcause : Ending.cause? o.operation limit (.listed (.failed cause)) = some cause := rfl
    rw [h.outcome_of_cause hcause] at herror
    injection herror with herror
    exact Or.inl ⟨cause, hcause, herror.symm⟩
  · cases h <;> cases herror
  · exact absurd rfl (hlist b)
  · have hcause : Ending.cause? o.operation limit .timedOut = some (.timedOut o.operation limit) :=
      rfl
    rw [h.outcome_of_cause hcause] at herror
    injection herror with herror
    exact Or.inl ⟨_, hcause, herror.symm⟩

end

/-! ## Callers who wait to the end

A caller waits to the end if it has joined a call and is there when it ends.  How it came to join
the call does not matter. -/

/-- Caller `c` has waited for call `id`, a list about the principal that was asked for by `o`, until
it ended in this way. -/
structure Sees (s : State) (c id : Id) (p : Principal) (o : Owner) (ending : Ending) : Prop where
  joined : .joined c id ∈ s.journal
  began : .began id p .listing o ∈ s.journal
  ended : .ended id p ending ∈ s.journal
  waits : .cancelled c ∉ s.journal

/-- The caller has been told this and nothing else. -/
def ToldOnly (s : State) (c : Id) (o : Outcome) : Prop :=
  ∀ o', .returned c o' ∈ s.journal ↔ o' = o

namespace Sees

variable {s : State} {c id : Id} {p : Principal} {o : Owner} {ending : Ending}

theorem told (h : Sees s c id p o ending) (hb : Books s) :
    ∃ r, .called c r ∈ s.journal ∧ Makes c r p .listing o
      ∧ ToldOnly s c (r.outcome o s.settings.backendTimeout ending) := by
  obtain ⟨r, hcalled, hmakes, hr⟩ :=
    hb.callers.told_of_ended hb.calls h.joined h.began h.ended h.waits
  refine ⟨r, hcalled, hmakes, fun o' => ⟨fun hr' => hb.callers.returned_unique hr' hr, ?_⟩⟩
  rintro rfl
  exact hr

/-- **Whoever waits for a list that fails is told the cause.** -/
theorem told_cause (h : Sees s c id p o ending) (hb : Books s) {cause : Cause}
    (hcause : ending.cause? o.operation s.settings.backendTimeout = some cause) :
    ToldOnly s c (.failed (.backendUnavailable cause)) := by
  obtain ⟨r, -, hmakes, htold⟩ := h.told hb
  rwa [hmakes.outcome_of_cause hcause] at htold

/-- Whoever waits for a list is told no error of another kind, unless the list denies it what it
asked for. -/
theorem kind (h : Sees s c id p o ending) (hb : Books s) {error : Error}
    (hr : .returned c (.failed error) ∈ s.journal) :
    (∃ cause, ending.cause? o.operation s.settings.backendTimeout = some cause
        ∧ error = .backendUnavailable cause)
      ∨ ∃ e a S, .called c (.enforce e p a) ∈ s.journal ∧ ending = .listed (.value S)
        ∧ error = .permissionDenied p e a := by
  obtain ⟨r, hcalled, hmakes, htold⟩ := h.told hb
  have hlist : ∀ b, ending ≠ .checked b := by
    rintro b rfl
    exact hb.calls.not_checked h.began h.ended
  refine (hmakes.cause_of_outcome hlist ((htold _).mp hr).symm).imp_right ?_
  rintro ⟨e, a, S, rfl, hS, herror⟩
  exact ⟨e, a, S, hcalled, hS, herror⟩

end Sees

/-! ## What is promised

Two engines are compared, which may be different in everything.  Only where a timeout is told is
the limit to be the same, because the limit is shown. -/

/-- A list that fails in one of the two engines fails as it does in the other, whoever has asked for
it and whoever waits. -/
structure FailsAlike (s t : State) : Prop where
  /-- What a backend has reported is told to everybody in one and the same error. -/
  reported : ∀ {c id p o c' id' p' o' cause},
    Sees s c id p o (.listed (.failed cause)) → Sees t c' id' p' o' (.listed (.failed cause)) →
      ∃ error : Error, ToldOnly s c (.failed error) ∧ ToldOnly t c' (.failed error)
        ∧ error.Shows cause
  /-- So is a timeout to all who update or share a fetch. -/
  late : ∀ {c id p o c' id' p' o'},
    Sees s c id p o .timedOut → Sees t c' id' p' o' .timedOut →
    s.settings.backendTimeout = t.settings.backendTimeout →
    (o = .fetch ∨ o = .update c) → (o' = .fetch ∨ o' = .update c') →
      ∃ error : Error, ToldOnly s c (.failed error) ∧ ToldOnly t c' (.failed error)
        ∧ error.Shows (.timedOut "list_privileges" s.settings.backendTimeout)
  /-- What a backend has reported may be an error of this library: it is a cause like any other. -/
  own : ∀ {c id p o inner}, Sees s c id p o (.listed (.failed (Error.asCause inner))) →
    ∃ error : Error, ToldOnly s c (.failed error)
      ∧ error.text = "authorization backend unavailable: " ++ inner.text
      ∧ error.chain = inner.text :: inner.chain
  /-- No error of another kind comes of a list that fails, and so none has to be made the cause of
  another to be shared. -/
  kinds : ∀ {c id p o ending error}, Sees s c id p o ending →
    .returned c (.failed error) ∈ s.journal →
      (error.isBackendUnavailable = true ∧ .backendUnavailable error.shared = error)
        ∨ ∃ e a S, .called c (.enforce e p a) ∈ s.journal ∧ ending = .listed (.value S)
          ∧ error = .permissionDenied p e a

/-- **Failures look the same on every path and to everybody who waits.**  In any two runs, of one
engine or of two, whoever waits for a list that fails is told the error that shows the cause, and it
is the same error wherever the cause is the same. -/
theorem failures_alike (settings settings' : Settings) (checks checks' : Bool)
    (es es' : List Event) : FailsAlike ((State.initial settings checks).run es)
      ((State.initial settings' checks').run es') := by
  have hs := (Books.initial settings checks).run es
  have ht := (Books.initial settings' checks').run es'
  generalize (State.initial settings checks).run es = s at hs
  generalize (State.initial settings' checks').run es' = t at ht
  have hoperation : ∀ {c o}, (o = .fetch ∨ o = .update c) →
      Owner.operation o = "list_privileges" := by
    rintro c o (rfl | rfl) <;> rfl
  refine ⟨fun {c id p o c' id' p' o' cause} h h' => ?_,
    fun {c id p o c' id' p' o'} h h' hlimit ho ho' => ?_, fun {c id p o inner} h => ?_,
    fun {c id p o ending error} h hr => ?_⟩
  · exact ⟨_, h.told_cause hs rfl, h'.told_cause ht rfl, Error.shows_cause cause⟩
  · refine ⟨_, h.told_cause hs ?_, h'.told_cause ht ?_, Error.shows_cause _⟩
    · rw [Ending.cause?, hoperation ho]
    · rw [Ending.cause?, hoperation ho', hlimit]
  · exact ⟨_, h.told_cause hs rfl, rfl, rfl⟩
  · refine (h.kind hs hr).imp_left ?_
    rintro ⟨cause, -, rfl⟩
    exact ⟨rfl, Error.backendUnavailable_shared_iff.mpr rfl⟩

/-- Two share a fetch in an engine that caches, a third updates, and a fourth decides without a
cache in an engine that has none.  All three lists fail in the same words, which are those of an
error of this library, and all four are told the same.  If the lists of the first three take too
long instead, those are told the same too. -/
theorem failures_alike_of_four :
    let p : Principal := ⟨.user, "alice"⟩
    let e : Entity := .space "docs"
    let inner : Error := .configuration .shutDown
    let down : Reply PrivilegeSet := .failed inner.asCause
    let asked : List Event := [.enforce e p .read, .enforce e p .write, .update p]
    let s := (State.initial { authorization := true } false).run
      (asked ++ [.answer 1 down, .answer 4 down])
    let t := (State.initial { authorization := true, caching := false } false).run
      [.enforce e p .read, .answer 1 down]
    let u := (State.initial { authorization := true } false).run
      (asked ++ [.elapse 10000, .expire 1, .expire 4])
    FailsAlike s t ∧ (∀ c ∈ [0, 2, 3], ∃ error : Error, ToldOnly s c (.failed error)
        ∧ ToldOnly t 0 (.failed error) ∧ error.Shows inner.asCause)
      ∧ FailsAlike u u ∧ ∀ c ∈ [0, 2], ∃ error : Error, ToldOnly u c (.failed error)
        ∧ ToldOnly u 3 (.failed error)
        ∧ error.Shows (.timedOut "list_privileges" u.settings.backendTimeout) := by
  intro p e inner down asked s t u
  have halike : FailsAlike s t := failures_alike _ _ _ _ _ _
  have hself : FailsAlike u u := failures_alike _ _ _ _ _ _
  have hdirect : Sees t 0 1 p (.direct 0 e .read) (.listed down) :=
    ⟨by decide, by decide, by decide, by decide⟩
  have hfetch : ∀ c ∈ [0, 2], Sees s c 1 p .fetch (.listed down) := fun c hc =>
    ⟨(by decide : ∀ c ∈ [0, 2], Note.joined c 1 ∈ s.journal) c hc, by decide, by decide,
      (by decide : ∀ c ∈ [0, 2], Note.cancelled c ∉ s.journal) c hc⟩
  have hupdate : Sees s 3 4 p (.update 3) (.listed down) :=
    ⟨by decide, by decide, by decide, by decide⟩
  have hlate : ∀ c ∈ [0, 2], Sees u c 1 p .fetch .timedOut := fun c hc =>
    ⟨(by decide : ∀ c ∈ [0, 2], Note.joined c 1 ∈ u.journal) c hc, by decide, by decide,
      (by decide : ∀ c ∈ [0, 2], Note.cancelled c ∉ u.journal) c hc⟩
  have hlateUpdate : Sees u 3 4 p (.update 3) .timedOut :=
    ⟨by decide, by decide, by decide, by decide⟩
  refine ⟨halike, List.forall_mem_cons.mpr ⟨?_, List.forall_mem_cons.mpr ⟨?_,
    List.forall_mem_singleton.mpr ?_⟩⟩, hself, fun c hc => ?_⟩
  · exact halike.reported (hfetch 0 (by decide)) hdirect
  · exact halike.reported (hfetch 2 (by decide)) hdirect
  · exact halike.reported hupdate hdirect
  · exact hself.late (hlate c hc) hlateUpdate rfl (Or.inl rfl) (Or.inr rfl)

end Engine

end Gatekeeper
