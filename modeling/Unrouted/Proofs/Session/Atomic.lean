import Unrouted.Session.Lines

/-!
A request that fails leaves the session as it was.  Each command first reads and checks, which
changes nothing, and then changes the session, which does not fail.  So the lines that are
passed over or answered by a failure might as well not have been there.
-/

namespace Unrouted
namespace Action

variable {α β : Type} {a : Action α} {f : α → Action β}

/-- The session stays as it is, whether there is an answer or not. -/
def Reads (a : Action α) : Prop := ∀ s, (a.run.run s).2 = s

/-- There is an answer, whatever becomes of the session. -/
def Answers (a : Action α) : Prop := ∀ s, ∃ x, (a.run.run s).1 = .ok x

/-- The session stays as it is if there is no answer. -/
def Atomic (a : Action α) : Prop := ∀ s e, (a.run.run s).1 = .error e → (a.run.run s).2 = s

theorem run_bind_of_ok {s s' : Session} {x : α} (h : a.run.run s = (.ok x, s')) :
    (a >>= f).run.run s = (f x).run.run s' := by
  simp only [ExceptT.run_bind, StateT.run_bind, h]
  rfl

theorem run_bind_of_error {s s' : Session} {e : Failure} (h : a.run.run s = (.error e, s')) :
    (a >>= f).run.run s = (.error e, s') := by
  simp only [ExceptT.run_bind, StateT.run_bind, h]
  rfl

/-! ## One action after another -/

theorem Reads.atomic (h : a.Reads) : a.Atomic := fun s _ _ => h s

theorem Answers.atomic (h : a.Answers) : a.Atomic := by
  intro s e he
  obtain ⟨x, hx⟩ := h s
  rw [hx] at he
  exact absurd he (by simp)

/-- After reading, the session is the same, and what comes next is carried out unless the
reading failed. -/
theorem Reads.run_bind (ha : a.Reads) (s : Session) :
    (∃ x, (a >>= f).run.run s = (f x).run.run s) ∨
      ∃ e, (a >>= f).run.run s = (.error e, s) := by
  have hs := ha s
  rcases hrun : a.run.run s with ⟨outcome, s'⟩
  rw [hrun] at hs
  subst hs
  cases outcome with
  | ok x => exact .inl ⟨x, run_bind_of_ok hrun⟩
  | error e => exact .inr ⟨e, run_bind_of_error hrun⟩

theorem Reads.bind (ha : a.Reads) (hf : ∀ x, (f x).Reads) : (a >>= f).Reads := by
  intro s
  obtain ⟨x, hx⟩ | ⟨e, he⟩ := ha.run_bind (f := f) s
  · rw [hx, hf x s]
  · rw [he]

theorem Reads.bind_atomic (ha : a.Reads) (hf : ∀ x, (f x).Atomic) : (a >>= f).Atomic := by
  intro s failure hfailure
  obtain ⟨x, hx⟩ | ⟨e, he⟩ := ha.run_bind (f := f) s
  · rw [hx] at hfailure ⊢
    exact hf x s failure hfailure
  · rw [he]

theorem Answers.bind (ha : a.Answers) (hf : ∀ x, (f x).Answers) : (a >>= f).Answers := by
  intro s
  obtain ⟨x, hx⟩ := ha s
  rcases hrun : a.run.run s with ⟨outcome, s'⟩
  rw [hrun] at hx
  subst hx
  rw [run_bind_of_ok hrun]
  exact hf x s'

theorem reads_throw (e : Failure) : (throw e : Action α).Reads := fun _ => rfl

theorem reads_pure (x : α) : (pure x : Action α).Reads := fun _ => rfl

theorem reads_get : (get : Action Session).Reads := fun _ => rfl

theorem reads_liftExcept (x : Except Failure α) : (liftM x : Action α).Reads := fun _ => rfl

theorem answers_pure (x : α) : (pure x : Action α).Answers := fun _ => ⟨x, rfl⟩

theorem answers_modify (g : Session → Session) : (modify g : Action Unit).Answers :=
  fun _ => ⟨(), rfl⟩

/-! ## Commands -/

theorem reads_loaded : loaded.Reads := by
  refine reads_get.bind fun s => ?_
  split
  · exact reads_throw _
  · exact reads_pure _

theorem answers_setStore (store : Store) : (setStore store).Answers := answers_modify _

/-- A reply that comes after the new store is set. -/
theorem answers_reply (store : Store) (reply : Reply) :
    (do setStore store; return reply : Action Reply).Answers :=
  (answers_setStore store).bind fun _ => answers_pure reply

/-- The board is found and the settings are checked before anything is changed. -/
theorem atomic_load (files : Files) (board : Option Board) (path : Option String)
    (options : Option Options) : (load files board path options).Atomic := by
  refine (reads_liftExcept _).bind_atomic fun board => reads_get.bind_atomic fun s => ?_
  dsimp only
  split
  · exact (reads_throw _).atomic
  · exact ((answers_modify _).bind fun _ => (answers_modify _).bind fun _ =>
      answers_reply _ _).atomic

theorem atomic_onBoard (command : BoardCommand) : (onBoard command).Atomic := by
  cases command with
  | updateItem item =>
    refine reads_loaded.bind_atomic fun store => ?_
    split
    · exact (answers_reply _ _).atomic
    · exact (reads_throw _).atomic
  | updateModule group =>
    -- All pads are checked before the first one is updated.
    refine reads_loaded.bind_atomic fun store => ?_
    split
    · exact (reads_throw _).atomic
    · exact (answers_reply _ _).atomic
  | removeItem id => exact reads_loaded.bind_atomic fun _ => (answers_reply _ _).atomic
  | removeModule id => exact reads_loaded.bind_atomic fun _ => (answers_reply _ _).atomic
  | recalculate net => exact reads_loaded.bind_atomic fun _ => (answers_reply _ _).atomic
  | getRatsnest net => exact reads_loaded.bind_atomic fun _ => (reads_pure _).atomic
  | setVisible net visible => exact reads_loaded.bind_atomic fun _ => (answers_reply _ _).atomic
  | isDirty net => exact reads_loaded.bind_atomic fun _ => (reads_pure _).atomic
  | addSimple item group => exact reads_loaded.bind_atomic fun _ => (answers_reply _ _).atomic
  | clearSimple => exact reads_loaded.bind_atomic fun _ => (answers_reply _ _).atomic
  | getStatus =>
    exact reads_loaded.bind_atomic fun _ => reads_get.bind_atomic fun _ => (reads_pure _).atomic

theorem atomic_ofRequest (files : Files) (request : Request) :
    (ofRequest files request).Atomic := by
  refine (reads_liftExcept _).bind_atomic fun command => ?_
  cases command with
  | load board path options => exact atomic_load files board path options
  | onBoard command => exact atomic_onBoard command

end Action

/-! ## Lines -/

/-- The request was not carried out. -/
def Response.failed (r : Response) : Bool := !r.outcome.isOk

namespace Session

theorem answer_of_error {s : Session} {files : Files} {request : Request} {failure : Failure}
    (h : (s.answer files request).1.outcome = .error failure) :
    (s.answer files request).2 = s :=
  Action.atomic_ofRequest files request s failure h

/-- A line without an answer, or with one that tells of a failure, has no effect. -/
theorem answerLine_of_failed {s : Session} {files : Files} {line : List UInt8}
    (h : (s.answerLine files line).1.all Response.failed = true) :
    (s.answerLine files line).2 = s := by
  cases htext : lineText? line with
  | none => simp only [answerLine, htext]
  | some text =>
    cases hread : Request.read text with
    | error cause => simp only [answerLine, htext, answerText, hread]
    | ok request =>
      simp only [answerLine, htext, answerText, hread, Option.all_some] at h ⊢
      cases houtcome : (s.answer files request).1.outcome with
      | ok reply => simp [Response.failed, houtcome, Except.isOk, Except.toBool] at h
      | error failure => exact answer_of_error houtcome

theorem answerEach_kept {files : Files} {s : Session} {chosen : List (List UInt8 × Bool)}
    (h : ∀ e ∈ chosen.zip (s.answerEach files (chosen.map Prod.fst)).1,
      e.1.2 = false → e.2.all Response.failed = true) :
    s.answerEach files ((chosen.filter Prod.snd).map Prod.fst) =
      (((chosen.zip (s.answerEach files (chosen.map Prod.fst)).1).filter fun e => e.1.2).map
        Prod.snd, (s.answerEach files (chosen.map Prod.fst)).2) := by
  induction chosen generalizing s with
  | nil => rfl
  | cons e rest ih =>
    obtain ⟨line, kept⟩ := e
    simp only [List.map_cons, answerEach, List.zip_cons_cons, List.mem_cons, forall_eq_or_imp] at h
    have hrest := ih h.2
    cases kept with
    | true => simp [answerEach, hrest]
    | false =>
      have hsame : (s.answerLine files line).2 = s := answerLine_of_failed (h.1 rfl)
      rw [hsame] at hrest
      simp [answerEach, hsame, hrest]

/-- A request that fails leaves the session as it was, with its store, its path and its
settings.  So lines may be left out that are passed over or answered by a failure, the ones
with `false` beside them: the other lines get the same answers, and the session ends up the
same. -/
theorem unchanged_of_failure (files : Files) :
    (∀ (s : Session) (request : Request) (failure : Failure),
      (s.answer files request).1.outcome = .error failure → (s.answer files request).2 = s) ∧
    ∀ (s : Session) (chosen : List (List UInt8 × Bool)),
      let all := s.answerEach files (chosen.map Prod.fst)
      (∀ e ∈ chosen.zip all.1, e.1.2 = false → e.2.all Response.failed = true) →
        s.answerEach files ((chosen.filter Prod.snd).map Prod.fst) =
          (((chosen.zip all.1).filter fun e => e.1.2).map Prod.snd, all.2) :=
  ⟨fun _ _ _ h => answer_of_error h, fun _ _ h => answerEach_kept h⟩

/-- A board is loaded between a blank line, one that is no text and one that is no request.
Then come a file that is not there, a net that is too high, and a module of which only the
second pad is on such a net. -/
def withFaults : List (List UInt8 × Bool) :=
  let line (text : String) : List UInt8 := text.toUTF8.toList
  [([0x20], false), ([0xff], false), (line "[]", false),
    (line "[1,\"Load\",[[[],[[1,2,[0,0]]]]]]", true),
    (line "[2,\"Load\",[null,\"gone\"]]", false),
    (line "[3,\"Load\",[[[],[[1,2000000,[0,0]]]]]]", false),
    (line "[4,\"UpdateModule\",[[4,[[1,2,[3,4]],[2,2000000,[3,4]]]]]]", false),
    (line "[5,\"Route\",null]", true),
    (line "[6,\"GetStatus\",null]", true)]

theorem unchanged_withFaults :
    let files : Files := fun _ => .error .missing
    let loading : Request := { id := none, method := "Load", params := none }
    let all := start.answerEach files (withFaults.map Prod.fst)
    (start.answer files loading).1.outcome = .error .nothingToLoad ∧
      (start.answer files loading).2 = start ∧
      (∀ e ∈ withFaults.zip all.1, e.1.2 = false → e.2.all Response.failed = true) ∧
      all.2 ≠ start ∧
      start.answerEach files ((withFaults.filter Prod.snd).map Prod.fst) =
        (((withFaults.zip all.1).filter fun e => e.1.2).map Prod.snd, all.2) := by
  let files : Files := fun _ => .error .missing
  have hloading : (start.answer files { id := none, method := "Load", params := none }).1.outcome =
      .error .nothingToLoad := by rfl
  have hfailed : ∀ e ∈ withFaults.zip (start.answerEach files (withFaults.map Prod.fst)).1,
      e.1.2 = false → e.2.all Response.failed = true := by decide +kernel
  obtain ⟨hrequest, hlines⟩ := unchanged_of_failure files
  exact ⟨hloading, hrequest _ _ _ hloading, hfailed, by decide +kernel, hlines _ _ hfailed⟩

end Session
end Unrouted
