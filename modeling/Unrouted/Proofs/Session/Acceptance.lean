import Unrouted.Proofs.Session.Atomic
import Unrouted.Proofs.Store.Listings

/-!
What becomes of the items that a command carries.  A command on a board comes to operations of
its store, and loading a board to operations of an empty store.  The nets are checked before
anything is done, so each item ends up on the net of its last listing.  Only the last of all
numbers may pass the check and has no place for a net.
-/

namespace Unrouted

/-- What a command does to the store of the loaded board. -/
def BoardCommand.operations : BoardCommand → List Store.Operation
  | updateItem item => [.update item]
  | updateModule group => [.updateModule group]
  | removeItem id => [.remove id]
  | removeModule id => [.removeModule id]
  | recalculate net => [.recalculate net]
  | getRatsnest _ => []
  | setVisible net visible => [.setVisible net visible]
  | isDirty _ => []
  | addSimple item group => item.toList.map .mark ++ group.toList.map .markModule
  | clearSimple => [.clearMarks]
  | getStatus => []

/-- The items that a command on a board carries. -/
def BoardCommand.items : BoardCommand → List Item
  | updateItem item => [item]
  | updateModule group => group.pads.map .pad
  | _ => []

/-- The items that a command carries, or that are in the file that it names. -/
def Command.items (files : Files) : Command → List Item
  | load board path _ =>
    match Session.findBoard files board path with
    | .ok found => found.items
    | .error _ => []
  | onBoard command => command.items

/-- The net on which an item can be tracked. -/
def Item.place? (item : Item) : Option NetCode :=
  if item.net = noNet ∨ item.net = lastNet then none else some item.net

theorem Item.place?_eq {options : Options} {item : Item} (h : item.net ≤ options.maxNet) :
    item.place? = if options.Routes item.net then some item.net else none := by
  unfold Item.place? Options.Routes
  by_cases hzero : item.net = noNet
  · simp [hzero]
  · simp [hzero, h]

namespace Action

variable {α β : Type} {a : Action α} {f : α → Action β} {s s' : Session} {reply : Reply}

/-- One action after another succeeds if both do. -/
theorem run_bind_eq_ok {y : β} (h : (a >>= f).run.run s = (.ok y, s')) :
    ∃ x t, a.run.run s = (.ok x, t) ∧ (f x).run.run t = (.ok y, s') := by
  rcases hrun : a.run.run s with ⟨outcome, t⟩
  cases outcome with
  | ok x => exact ⟨x, t, rfl, (run_bind_of_ok hrun).symm.trans h⟩
  | error e =>
    rw [run_bind_of_error hrun] at h
    exact absurd (congrArg Prod.fst h) (by simp)

theorem run_liftExcept_eq_ok {x : Except Failure α} {y : α}
    (h : (liftM x : Action α).run.run s = (.ok y, s')) : x = .ok y ∧ s' = s := by
  cases h
  exact ⟨rfl, rfl⟩

/-- What needs a board is only done if there is one. -/
theorem run_loaded_bind_eq_ok {f : Store → Action β} {y : β}
    (h : (loaded >>= f).run.run s = (.ok y, s')) :
    ∃ store, s.store = some store ∧ (f store).run.run s = (.ok y, s') := by
  obtain ⟨store, t, hloaded, hrun⟩ := run_bind_eq_ok h
  obtain ⟨u, v, hget, hfound⟩ := run_bind_eq_ok hloaded
  cases hget
  split at hfound
  · cases hfound
  · rename_i hstore
    cases hfound
    exact ⟨store, hstore, hrun⟩

/-- A command on a board is answered if there is a board that accepts its items, and it changes
nothing but the store. -/
theorem run_onBoard_eq_ok {command : BoardCommand}
    (h : (onBoard command).run.run s = (.ok reply, s')) :
    ∃ store, s.store = some store ∧ s' = { s with store := some (store.run command.operations) } ∧
      ∀ item ∈ command.items, item.net ≤ store.options.maxNet := by
  cases command with
  | updateItem item =>
    obtain ⟨store, hstore, hrun⟩ := run_loaded_bind_eq_ok h
    split at hrun
    · rename_i haccepts
      cases hrun
      refine ⟨store, hstore, rfl, fun listed hlisted => ?_⟩
      obtain rfl := List.mem_singleton.1 hlisted
      exact of_decide_eq_true haccepts
    · cases hrun
  | updateModule group =>
    obtain ⟨store, hstore, hrun⟩ := run_loaded_bind_eq_ok h
    split at hrun
    · cases hrun
    · rename_i haccepts
      cases hrun
      refine ⟨store, hstore, rfl, fun listed hlisted => ?_⟩
      obtain ⟨pad, hpad, rfl⟩ := List.mem_map.1 hlisted
      have haccepted : store.accepts pad.net = true := by
        simpa using List.find?_eq_none.1 haccepts pad hpad
      exact of_decide_eq_true haccepted
  -- Only the first two commands have items to check; of the others some leave the store as it is.
  | addSimple item group =>
    obtain ⟨store, hstore, hrun⟩ := run_loaded_bind_eq_ok h
    cases hrun
    refine ⟨store, hstore, ?_, nofun⟩
    cases item <;> cases group <;> rfl
  | removeItem | removeModule | recalculate | setVisible | clearSimple =>
    obtain ⟨store, hstore, hrun⟩ := run_loaded_bind_eq_ok h
    cases hrun
    exact ⟨store, hstore, rfl, nofun⟩
  | getRatsnest | isDirty | getStatus =>
    obtain ⟨store, hstore, hrun⟩ := run_loaded_bind_eq_ok h
    cases hrun
    have hsame : s = { s with store := some store } := by rw [← hstore]
    exact ⟨store, hstore, hsame, nofun⟩

/-- What a load comes to.  It goes by the settings that come with it, or by those that are
there. -/
structure Loads (files : Files) (board : Option Board) (path : Option String)
    (options : Option Options) (s s' : Session) (found : Board) (reply : Reply) : Prop where
  found_eq : Session.findBoard files board path = .ok found
  accepted : found.maxNet ≤ (options.getD s.options).maxNet
  store_eq : s'.store = some
    ((Store.empty (options.getD s.options)).run [.load found, .recalculate none])
  reply_eq : ∃ missing, reply = .loaded
    ((((Store.empty (options.getD s.options)).load found).recalculate none).nets.size - 1) missing

theorem run_load_eq_ok {files : Files} {board : Option Board} {path : Option String}
    {options : Option Options} (h : (load files board path options).run.run s = (.ok reply, s')) :
    ∃ found, Loads files board path options s s' found reply := by
  obtain ⟨found, t, hread, hrun⟩ := run_bind_eq_ok h
  obtain ⟨hfound, rfl⟩ := run_liftExcept_eq_ok hread
  obtain ⟨t, u, hget, hrun⟩ := run_bind_eq_ok hrun
  cases hget
  dsimp only at hrun
  split at hrun
  · cases hrun
  · rename_i hle
    cases hrun
    exact ⟨found, hfound, UInt64.not_lt.1 hle, rfl, _, rfl⟩

end Action

namespace BoardCommand

/-- What a command comes to for the items of a store ends with the items that it carries. -/
theorem eventsOf_operations (s : Store) (command : BoardCommand) :
    ∃ before, s.eventsOf command.operations = before ++ command.items.map .place := by
  cases command with
  | updateItem item => exact ⟨[], rfl⟩
  | updateModule group =>
    refine ⟨(s.dropped group).map fun p => .drop (.pad p), ?_⟩
    simp only [operations, items, Store.eventsOf, Store.events, Store.dropped, List.append_nil,
      List.map_map]
    rfl
  | removeItem | removeModule | recalculate | getRatsnest | setVisible | isDirty | addSimple
  | clearSimple | getStatus => exact ⟨_, (List.append_nil _).symm⟩

end BoardCommand

namespace Session

/-- The store of the session has come about by operations. -/
def Sound (s : Session) : Prop := ∀ store, s.store = some store → store.Reachable

theorem sound_start : start.Sound := nofun

theorem run_ofRequest_eq_ok {files : Files} {s s' : Session} {request : Request} {reply : Reply}
    (h : (Action.ofRequest files request).run.run s = (.ok reply, s')) :
    ∃ command, Command.ofRequest request.method request.params = .ok command ∧
      (Action.ofCommand files command).run.run s = (.ok reply, s') := by
  obtain ⟨command, t, hread, hrun⟩ := Action.run_bind_eq_ok h
  obtain ⟨hcommand, rfl⟩ := Action.run_liftExcept_eq_ok hread
  exact ⟨command, hcommand, hrun⟩

theorem sound_ofCommand {files : Files} {s s' : Session} {command : Command} {reply : Reply}
    (hs : s.Sound) (h : (Action.ofCommand files command).run.run s = (.ok reply, s')) :
    s'.Sound := by
  intro store hstore
  cases command with
  | load board path options =>
    obtain ⟨found, hloads⟩ := Action.run_load_eq_ok h
    obtain rfl := Option.some.inj (hloads.store_eq.symm.trans hstore)
    exact (Store.reachable_empty _).run _
  | onBoard command =>
    obtain ⟨before, hbefore, rfl, -⟩ := Action.run_onBoard_eq_ok h
    obtain rfl := Option.some.inj hstore
    exact (hs before hbefore).run command.operations

theorem sound_answer {s : Session} (hs : s.Sound) (files : Files) (request : Request) :
    (s.answer files request).2.Sound := by
  cases h : (s.answer files request).1.outcome with
  | ok reply =>
    obtain ⟨command, -, hrun⟩ := run_ofRequest_eq_ok (Prod.ext h rfl)
    exact sound_ofCommand hs hrun
  | error failure => rwa [answer_of_error h]

theorem sound_answerLine {s : Session} (hs : s.Sound) (files : Files) (line : List UInt8) :
    (s.answerLine files line).2.Sound := by
  cases htext : lineText? line with
  | none => simpa only [answerLine, htext] using hs
  | some text =>
    cases hread : Request.read text with
    | error cause => simpa only [answerLine, htext, answerText, hread] using hs
    | ok request =>
      simpa only [answerLine, htext, answerText, hread] using sound_answer hs files request

/-- A session is sound whatever lines it has been given. -/
theorem sound_answerEach {s : Session} (hs : s.Sound) (files : Files)
    (lines : List (List UInt8)) : (s.answerEach files lines).2.Sound := by
  induction lines generalizing s with
  | nil => exact hs
  | cons line rest ih => exact ih (sound_answerLine hs files line)

/-! ## Items -/

/-- Each item is on the net of its last listing, if there can be such a net, and otherwise on
none. -/
def Holds (s : Session) (items : List Item) : Prop :=
  ∀ id item, lastListed? items id = some item →
    ∃ store, s.store = some store ∧ store.Tracks id item.place?

theorem holds_load {files : Files} {s s' : Session} {board : Option Board} {path : Option String}
    {options : Option Options} {found : Board} {reply : Reply}
    (h : Action.Loads files board path options s s' found reply) : s'.Holds found.items := by
  intro id item hitem
  have hle : item.net ≤ (options.getD s.options).maxNet :=
    UInt64.le_trans (Board.net_le_maxNet (mem_of_lastListed? hitem)) h.accepted
  have hevents : (Store.empty (options.getD s.options)).eventsOf [.load found, .recalculate none] =
      [.dropAll] ++ found.items.map .place := by
    simp [Store.eventsOf, Store.events]
  refine ⟨_, h.store_eq, ?_⟩
  rw [Item.place?_eq hle]
  exact (Store.reachable_empty (options.getD s.options)).tracks hevents hitem

theorem holds_onBoard {s s' : Session} {command : BoardCommand} {reply : Reply} (hs : s.Sound)
    (h : (Action.onBoard command).run.run s = (.ok reply, s')) : s'.Holds command.items := by
  obtain ⟨store, hstore, rfl, haccepted⟩ := Action.run_onBoard_eq_ok h
  intro id item hitem
  obtain ⟨before, hevents⟩ := command.eventsOf_operations store
  refine ⟨_, rfl, ?_⟩
  rw [Item.place?_eq (haccepted item (mem_of_lastListed? hitem))]
  exact (hs store hstore).tracks hevents hitem

/-- What has become of a command that was answered with a reply. -/
structure Accepts (files : Files) (command : Command) (reply : Reply) (s : Session) : Prop where
  holds : s.Holds (command.items files)
  /-- After a load the nets reach to the highest one of the board.  The last of all numbers does
  not count. -/
  count : ∀ board path options, command = .load board path options →
    ∃ found missing, findBoard files board path = .ok found ∧
      reply = .loaded (highestNet (found.items.filter fun item => decide (item.net ≠ lastNet)))
        missing ∧
      (found.maxNet ≠ lastNet → reply = .loaded found.maxNet.toNat missing)

theorem accepts_answer (files : Files) (s : Session) (request : Request) (reply : Reply)
    (hs : s.Sound) (h : (s.answer files request).1.outcome = .ok reply) :
    ∃ command, Command.ofRequest request.method request.params = .ok command ∧
      Accepts files command reply (s.answer files request).2 := by
  obtain ⟨command, hcommand, hrun⟩ := run_ofRequest_eq_ok (Prod.ext h rfl)
  refine ⟨command, hcommand, ?_⟩
  cases command with
  | onBoard command => exact ⟨holds_onBoard hs hrun, nofun⟩
  | load board path options =>
    obtain ⟨found, hloads⟩ := Action.run_load_eq_ok hrun
    have hholds : (s.answer files request).2.Holds found.items := holds_load hloads
    refine ⟨?_, ?_⟩
    · simpa only [Command.items, hloads.found_eq] using hholds
    · rintro _ _ _ ⟨⟩
      obtain ⟨missing, hreply⟩ := hloads.reply_eq
      rw [Store.recalculate_none, Array.size_map, Store.size_load hloads.accepted] at hreply
      refine ⟨found, missing, hloads.found_eq, hreply, fun hlast => ?_⟩
      rw [hreply, found.toNat_maxNet, List.filter_eq_self.2 fun item hitem => ?_]
      exact decide_eq_true (Board.net_ne_lastNet hlast hitem)

/-- The request to load a board under settings. -/
def loading (board : Board) (options : Options) : Request :=
  { id := none, method := "Load"
    params := some (.object [("board", board.encode), ("options", options.encode)]) }

/-- A module lists one of its pads twice, and another one on no net. -/
def twiceListed : Module where
  id := 4
  pads := [{ id := 1, net := 2, position := ⟨0, 0⟩ }, { id := 2, net := 0, position := ⟨3, 4⟩ },
    { id := 1, net := 5, position := ⟨6, 8⟩ }]

theorem accepts_twiceListed :
    let files : Files := fun _ => .error .missing
    let s := (start.answer files (loading .empty { Options.default with maxNet := 5 })).2
    let request : Request :=
      { id := none, method := "UpdateModule"
        params := some (.object [("module", twiceListed.encode)]) }
    (s.answer files request).1.outcome = .ok (.moduleUpdated 3) ∧
      ∃ command, Command.ofRequest request.method request.params = .ok command ∧
        Accepts files command (.moduleUpdated 3) (s.answer files request).2 := by
  intro files s request
  have hs : s.Sound := sound_answer sound_start files _
  have hreply : (s.answer files request).1.outcome = .ok (.moduleUpdated 3) := by decide +kernel
  exact ⟨hreply, accepts_answer files s request _ hs hreply⟩

/-- If the last of all numbers is accepted, a via on that net is loaded without a failure and
yet is on no net, and the nets that are counted do not reach to it. -/
theorem not_accepts_lastNet :
    let files : Files := fun _ => .error .missing
    let via : Via := { id := 1, net := lastNet, position := ⟨0, 0⟩ }
    let board : Board := { Board.empty with vias := [via] }
    let (response, s) := start.answer files (loading board { Options.default with maxNet := lastNet })
    response.outcome = .ok (.loaded 0 0) ∧ board.maxNet.toNat ≠ 0 ∧
      s.store.bind (fun store => store.itemNet? (.via 1)) ≠ some via.net := by
  decide +kernel

end Session
end Unrouted
