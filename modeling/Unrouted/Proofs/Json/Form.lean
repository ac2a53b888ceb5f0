import Unrouted.Json.Record
import Unrouted.Proofs.Json.Reader
import Mathlib.Data.List.Nodup

/-!
The forms of a value: the fields of an object may come in another order and with fields of other
names among them, and an object may be written as the array of its values.  All of this holds
inside the value as well.  A record is read from every form of the object that it is written as.
-/

namespace Unrouted
namespace Json

/-- A whole number or a truth value. -/
def isSimple : Json → Bool
  | number (.whole _) | bool _ => true
  | _ => false

mutual

/-- The second value is a form of the first one. -/
def HasForm : Json → Json → Prop
  | array items, j => ∃ items', j = array items' ∧ ItemsHaveForms items items'
  | object fields, j => ∃ fields', FieldsHaveForms fields fields' ∧
      (j = array (fields'.map Prod.snd) ∨
        ∃ extras all, j = object all ∧ all.Perm (fields' ++ extras) ∧
          ∀ e ∈ extras, e.1 ∉ fields.map Prod.fst ∧ e.2.isSimple = true)
  | v, j => j = v

def ItemsHaveForms : List Json → List Json → Prop
  | [], js => js = []
  | v :: rest, js => ∃ j more, js = j :: more ∧ v.HasForm j ∧ ItemsHaveForms rest more

def FieldsHaveForms : List (String × Json) → List (String × Json) → Prop
  | [], fs => fs = []
  | (k, v) :: rest, fs => ∃ j more, fs = (k, j) :: more ∧ v.HasForm j ∧ FieldsHaveForms rest more

end

variable {v j : Json} {items items' : List Json} {fields fields' : List (String × Json)}

/-! ## Forms in general -/

mutual

/-- A value is a form of itself. -/
theorem HasForm.refl : ∀ v : Json, v.HasForm v
  | null => rfl
  | bool _ => rfl
  | number _ => rfl
  | string _ => rfl
  | illegible => rfl
  | array items => ⟨items, rfl, ItemsHaveForms.refl items⟩
  | object fields =>
    ⟨fields, FieldsHaveForms.refl fields, .inr ⟨[], fields, rfl, by simp, by simp⟩⟩

theorem ItemsHaveForms.refl : ∀ items : List Json, ItemsHaveForms items items
  | [] => rfl
  | v :: rest => ⟨v, rest, rfl, HasForm.refl v, ItemsHaveForms.refl rest⟩

theorem FieldsHaveForms.refl : ∀ fields : List (String × Json), FieldsHaveForms fields fields
  | [] => rfl
  | (_, v) :: rest => ⟨v, rest, rfl, HasForm.refl v, FieldsHaveForms.refl rest⟩

end

/-- The values of an object make up an array. -/
theorem hasForm_values (fields : List (String × Json)) :
    (object fields).HasForm (array (fields.map Prod.snd)) :=
  ⟨fields, FieldsHaveForms.refl fields, .inl rfl⟩

/-- The fields of an object may come in any order, with others among them. -/
theorem hasForm_perm {extras all : List (String × Json)} (hperm : all.Perm (fields ++ extras))
    (hextras : ∀ e ∈ extras, e.1 ∉ fields.map Prod.fst ∧ e.2.isSimple = true) :
    (object fields).HasForm (object all) :=
  ⟨fields, FieldsHaveForms.refl fields, .inr ⟨extras, all, rfl, hperm, hextras⟩⟩

theorem allPlain_iff : allPlain items = true ↔ ∀ j ∈ items, j.isPlain = true := by
  induction items with
  | nil => simp [allPlain]
  | cons j rest ih => rw [allPlain, Bool.and_eq_true, ih, List.forall_mem_cons]

theorem allFieldsPlain_iff : allFieldsPlain fields = true ↔ ∀ f ∈ fields, f.2.isPlain = true := by
  induction fields with
  | nil => simp [allFieldsPlain]
  | cons f rest ih => rw [allFieldsPlain, Bool.and_eq_true, ih, List.forall_mem_cons]

theorem isPlain_of_isSimple (h : j.isSimple = true) : j.isPlain = true := by
  cases j with
  | number n =>
    cases n with
    | whole n => rfl
    | real x => exact absurd h (by simp [isSimple])
  | bool b => rfl
  | null | string | array | object | illegible => exact absurd h (by simp [isSimple])

mutual

theorem isPlain_of_hasForm : ∀ {v j : Json}, v.isPlain = true → v.HasForm j → j.isPlain = true
  | null, _, h, hform => by rwa [hform]
  | bool _, _, h, hform => by rwa [hform]
  | number _, _, h, hform => by rwa [hform]
  | string _, _, h, hform => by rwa [hform]
  | illegible, _, h, hform => by rwa [hform]
  | array items, _, h, hform => by
    obtain ⟨items', rfl, hitems⟩ := hform
    exact allPlain_of_haveForms h hitems
  | object fields, _, h, hform => by
    obtain ⟨fields', hfields, hform⟩ := hform
    have hplain := allFieldsPlain_iff.1 (allFieldsPlain_of_haveForms h hfields)
    rcases hform with rfl | ⟨extras, all, rfl, hperm, hextras⟩
    · rw [isPlain, allPlain_iff]
      intro j hj
      obtain ⟨f, hf, rfl⟩ := List.mem_map.1 hj
      exact hplain f hf
    · rw [isPlain, allFieldsPlain_iff]
      intro f hf
      rcases List.mem_append.1 (hperm.mem_iff.1 hf) with hf | hf
      · exact hplain f hf
      · exact isPlain_of_isSimple (hextras f hf).2

theorem allPlain_of_haveForms : ∀ {items items' : List Json}, allPlain items = true →
    ItemsHaveForms items items' → allPlain items' = true
  | [], _, _, hform => by rw [hform]; rfl
  | v :: rest, _, h, hform => by
    obtain ⟨j, more, rfl, hv, hrest⟩ := hform
    rw [allPlain, Bool.and_eq_true] at h ⊢
    exact ⟨isPlain_of_hasForm h.1 hv, allPlain_of_haveForms h.2 hrest⟩

theorem allFieldsPlain_of_haveForms : ∀ {fields fields' : List (String × Json)},
    allFieldsPlain fields = true → FieldsHaveForms fields fields' → allFieldsPlain fields' = true
  | [], _, _, hform => by rw [hform]; rfl
  | (k, v) :: rest, _, h, hform => by
    obtain ⟨j, more, rfl, hv, hrest⟩ := hform
    rw [allFieldsPlain, Bool.and_eq_true] at h ⊢
    exact ⟨isPlain_of_hasForm h.1 hv, allFieldsPlain_of_haveForms h.2 hrest⟩

end

theorem greatestDepth_le {n : Nat} : greatestDepth items ≤ n ↔ ∀ j ∈ items, j.depth ≤ n := by
  induction items with
  | nil => simp [greatestDepth]
  | cons j rest ih => rw [greatestDepth, Nat.max_le, ih, List.forall_mem_cons]

theorem greatestFieldDepth_le {n : Nat} :
    greatestFieldDepth fields ≤ n ↔ ∀ f ∈ fields, f.2.depth ≤ n := by
  induction fields with
  | nil => simp [greatestFieldDepth]
  | cons f rest ih => rw [greatestFieldDepth, Nat.max_le, ih, List.forall_mem_cons]

theorem depth_asRead_number (n : Number) : (number n).asRead.depth = 0 := by
  cases n with
  | whole n =>
    rw [asRead]
    cases (Numeral.ofInt n).value? <;> rfl
  | real x => rfl

theorem depth_asRead_of_isSimple (h : j.isSimple = true) : j.asRead.depth = 0 := by
  cases j with
  | number n => exact depth_asRead_number n
  | bool b => rfl
  | null | string | array | object | illegible => exact absurd h (by simp [isSimple])

mutual

/-- A form is nested no deeper. -/
theorem depth_asRead_le : ∀ {v j : Json}, v.HasForm j → j.asRead.depth ≤ v.depth
  | null, _, h => by rw [h]; rfl
  | bool _, _, h => by rw [h]; rfl
  | number n, _, h => by rw [h, depth_asRead_number]; exact Nat.zero_le _
  | string _, _, h => by rw [h]; rfl
  | illegible, _, h => by rw [h]; rfl
  | array items, _, h => by
    obtain ⟨items', rfl, hitems⟩ := h
    have hdepth := depth_asRead_le_of_items hitems
    rw [asRead, depth, depth, Nat.add_le_add_iff_right, greatestDepth_le, itemsAsRead_eq]
    simpa using hdepth
  | object fields, _, h => by
    obtain ⟨fields', hfields, h⟩ := h
    have hdepth := depth_asRead_le_of_fields hfields
    rcases h with rfl | ⟨extras, all, rfl, hperm, hextras⟩
    · rw [asRead, depth, depth, Nat.add_le_add_iff_right, greatestDepth_le, itemsAsRead_eq,
        List.map_map]
      intro k hk
      obtain ⟨f, hf, rfl⟩ := List.mem_map.1 hk
      exact hdepth f hf
    · rw [asRead, depth, depth, Nat.add_le_add_iff_right, greatestFieldDepth_le, fieldsAsRead_eq]
      intro f hf
      obtain ⟨e, he, rfl⟩ := List.mem_map.1 hf
      rcases List.mem_append.1 (hperm.mem_iff.1 he) with he | he
      · exact hdepth e he
      · rw [depth_asRead_of_isSimple (hextras e he).2]
        exact Nat.zero_le _

theorem depth_asRead_le_of_items : ∀ {items items' : List Json}, ItemsHaveForms items items' →
    ∀ j ∈ items', j.asRead.depth ≤ greatestDepth items
  | [], _, h => by rw [h]; simp
  | v :: rest, _, h => by
    obtain ⟨j, more, rfl, hv, hrest⟩ := h
    have hmore := depth_asRead_le_of_items hrest
    rw [greatestDepth, List.forall_mem_cons]
    exact ⟨Nat.le_trans (depth_asRead_le hv) (Nat.le_max_left _ _),
      fun k hk => Nat.le_trans (hmore k hk) (Nat.le_max_right _ _)⟩

theorem depth_asRead_le_of_fields : ∀ {fields fields' : List (String × Json)},
    FieldsHaveForms fields fields' → ∀ f ∈ fields', f.2.asRead.depth ≤ greatestFieldDepth fields
  | [], _, h => by rw [h]; simp
  | (k, v) :: rest, _, h => by
    obtain ⟨j, more, rfl, hv, hrest⟩ := h
    have hmore := depth_asRead_le_of_fields hrest
    rw [greatestFieldDepth, List.forall_mem_cons]
    exact ⟨Nat.le_trans (depth_asRead_le hv) (Nat.le_max_left _ _),
      fun f hf => Nat.le_trans (hmore f hf) (Nat.le_max_right _ _)⟩

end

/-! ## Written values -/

/-- All numbers are whole, and no more than `n` arrays and objects are nested. -/
structure Modest (n : Nat) (j : Json) : Prop where
  plain : j.isPlain = true
  depth : j.depth ≤ n

theorem modest_ofUInt64 (k : UInt64) (n : Nat) : (ofUInt64 k).Modest n := ⟨rfl, Nat.zero_le n⟩

theorem modest_ofInt (k : Int) (n : Nat) : (ofInt k).Modest n := ⟨rfl, Nat.zero_le n⟩

theorem modest_string (s : String) (n : Nat) : (string s).Modest n := ⟨rfl, Nat.zero_le n⟩

theorem modest_list {α : Type} {encode : α → Json} {n : Nat} (h : ∀ a, (encode a).Modest n)
    (xs : List α) : (array (xs.map encode)).Modest (n + 1) where
  plain := allPlain_iff.2 (List.forall_mem_map.2 fun a _ => (h a).plain)
  depth := Nat.succ_le_succ (greatestDepth_le.2 (List.forall_mem_map.2 fun a _ => (h a).depth))

theorem modest_object {n : Nat} (h : ∀ f ∈ fields, f.2.Modest n) :
    (object fields).Modest (n + 1) where
  plain := allFieldsPlain_iff.2 fun f hf => (h f hf).plain
  depth := Nat.succ_le_succ (greatestFieldDepth_le.2 fun f hf => (h f hf).depth)

theorem Modest.cons {n : Nat} {k : String} (h : (object fields).Modest (n + 1))
    (hv : v.Modest n) : (object ((k, v) :: fields)).Modest (n + 1) where
  plain := Bool.and_eq_true_iff.2 ⟨hv.plain, h.plain⟩
  depth := Nat.succ_le_succ (Nat.max_le.2 ⟨hv.depth, Nat.le_of_succ_le_succ h.depth⟩)

/-! ## Records -/

theorem FieldsHaveForms.keys_eq (h : FieldsHaveForms fields fields') :
    fields'.map Prod.fst = fields.map Prod.fst := by
  induction fields generalizing fields' with
  | nil => rw [h]
  | cons f rest ih =>
    obtain ⟨j, more, rfl, -, hrest⟩ := h
    rw [List.map_cons, List.map_cons, ih hrest]

theorem FieldsHaveForms.exists_form {name : String} (h : FieldsHaveForms fields fields')
    (hmem : (name, v) ∈ fields) : ∃ j, (name, j) ∈ fields' ∧ v.HasForm j := by
  induction fields generalizing fields' with
  | nil => exact absurd hmem List.not_mem_nil
  | cons f rest ih =>
    obtain ⟨j, more, rfl, hv, hrest⟩ := h
    rcases List.mem_cons.1 hmem with rfl | hmem
    · exact ⟨j, List.mem_cons_self, hv⟩
    · obtain ⟨k, hk, hform⟩ := ih hrest hmem
      exact ⟨k, List.mem_cons_of_mem _ hk, hform⟩

theorem find?_of_perm {known : List (String × Json)} {name : String}
    (hperm : known.Perm fields) (hnodup : (fields.map Prod.fst).Nodup)
    (hmem : (name, v) ∈ fields) : known.find? (fun f => f.1 == name) = some (name, v) := by
  have hkeys : (known.map Prod.fst).Nodup := (hperm.map Prod.fst).nodup_iff.2 hnodup
  have hknown : (name, v) ∈ known := hperm.mem_iff.2 hmem
  cases hfound : known.find? (fun f => f.1 == name) with
  | none => exact absurd (List.find?_eq_none.1 hfound _ hknown) (by simp)
  | some f =>
    have hname : f.1 = name := by simpa using List.find?_some hfound
    have hf := List.mem_of_find?_eq_some hfound
    rw [List.inj_on_of_nodup_map hkeys hf hknown hname]

/-- The record has each of the fields in some form. -/
def Record.Holds (r : Record) (fields : List (String × Json)) : Prop :=
  ∀ name v, (name, v) ∈ fields → ∃ j, r.find? name = some j.asRead ∧ v.HasForm j

/-- The fields of other names are passed over. -/
theorem perm_known {names : List String} {extras all : List (String × Json)}
    (hkeys : fields'.map Prod.fst = names) (hperm : all.Perm (fields' ++ extras))
    (hextras : ∀ e ∈ extras, e.1 ∉ names) :
    ((fieldsAsRead all).filter fun f => names.contains f.1).Perm
      (fields'.map fun f => (f.1, f.2.asRead)) := by
  have hknown : (fields'.filter fun f => names.contains f.1) = fields' := by
    rw [List.filter_eq_self]
    intro f hf
    rw [List.contains_iff_mem, ← hkeys]
    exact List.mem_map_of_mem hf
  have hunknown : (extras.filter fun f => names.contains f.1) = [] := by
    rw [List.filter_eq_nil_iff]
    intro e he
    rw [List.contains_iff_mem]
    exact hextras e he
  have hfiltered := hperm.filter fun f => names.contains f.1
  rw [List.filter_append, hknown, hunknown, List.append_nil] at hfiltered
  rw [fieldsAsRead_eq, List.filter_map]
  exact hfiltered.map _

theorem find?_repeated_eq_none {known : List (String × Json)}
    (h : (known.map Prod.fst).Nodup) (names : List String) :
    (names.find? fun name => decide (1 < known.countP fun f => f.1 == name)) = none := by
  rw [List.find?_eq_none]
  intro name _
  have hcount := List.nodup_iff_count_le_one.1 h name
  rw [List.count, List.countP_map] at hcount
  rw [decide_eq_true_eq, Nat.not_lt]
  exact hcount

/-- A record is read from every form of an object with its fields. -/
theorem exists_record (names : List String) (hnames : fields.map Prod.fst = names)
    (hnodup : names.Nodup) (h : (object fields).HasForm j) :
    ∃ r, Record.ofJson names j.asRead = .ok r ∧ r.Holds fields := by
  obtain ⟨fields', hfields, h⟩ := h
  have hkeys : fields'.map Prod.fst = names := hfields.keys_eq.trans hnames
  have hnodup' : ((fields'.map fun f => (f.1, f.2.asRead)).map Prod.fst).Nodup := by
    rw [List.map_map]
    exact hkeys ▸ hnodup
  -- In both cases the record has the same fields, if not in the same order.
  have hread (known : List (String × Json))
      (hknown : known.Perm (fields'.map fun f => (f.1, f.2.asRead))) :
      Record.Holds { fields := known } fields := by
    intro name v hmem
    obtain ⟨j, hj, hform⟩ := hfields.exists_form hmem
    refine ⟨j, ?_, hform⟩
    rw [Record.find?, find?_of_perm hknown hnodup' (List.mem_map.2 ⟨(name, j), hj, rfl⟩)]
    rfl
  rcases h with rfl | ⟨extras, all, rfl, hperm, hextras⟩
  · have hzip : names.zip (itemsAsRead (fields'.map Prod.snd)) =
        fields'.map fun f => (f.1, f.2.asRead) := by
      rw [itemsAsRead_eq, List.map_map, ← hkeys, List.zip_map']
      rfl
    have hlength : ¬names.length < (itemsAsRead (fields'.map Prod.snd)).length := by
      rw [itemsAsRead_eq, List.length_map, List.length_map, ← hkeys, List.length_map]
      exact Nat.lt_irrefl _
    refine ⟨_, ?_, hread _ (List.Perm.refl _)⟩
    rw [asRead, Record.ofJson, if_neg hlength, hzip]
  · have hknown := perm_known hkeys hperm fun e he => hnames ▸ (hextras e he).1
    refine ⟨_, ?_, hread _ hknown⟩
    have honce := (hknown.map Prod.fst).nodup_iff.2 hnodup'
    rw [asRead, Record.ofJson, find?_repeated_eq_none honce]

/-! ## Decoding -/

variable {α : Type} {encode : α → Json} {decode : Json → Decoded α} {r : Record} {name : String}

theorem ok_bind {β : Type} (a : α) (f : α → Decoded β) : (Except.ok a >>= f) = f a := rfl

/-- Decoding gives a value back from every form in which it may have been read. -/
def Restores (encode : α → Json) (decode : Json → Decoded α) : Prop :=
  ∀ a j, (encode a).HasForm j → decode j.asRead = .ok a

theorem Record.Holds.required (h : r.Holds fields) (hdecode : Restores encode decode) {a : α}
    (hmem : (name, encode a) ∈ fields) : r.required name decode = .ok a := by
  obtain ⟨j, hfind, hform⟩ := h name (encode a) hmem
  rw [Record.required, hfind]
  exact hdecode a j hform

theorem Record.Holds.optional (h : r.Holds fields) (hdecode : Restores encode decode) {a : α}
    (hmem : (name, encode a) ∈ fields) (default : α) :
    r.optional name default decode = .ok a := by
  obtain ⟨j, hfind, hform⟩ := h name (encode a) hmem
  rw [Record.optional, hfind]
  exact hdecode a j hform

theorem Restores.list (h : Restores encode decode) :
    Restores (fun xs : List α => .array (xs.map encode)) (toList decode) := by
  intro xs j hform
  obtain ⟨items, rfl, hitems⟩ := hform
  rw [asRead, itemsAsRead_eq, toList]
  induction xs generalizing items with
  | nil =>
    rw [hitems]
    rfl
  | cons x rest ih =>
    obtain ⟨k, more, rfl, hk, hrest⟩ := hitems
    rw [List.map_cons, List.mapM_cons, h x k hk, ih more hrest]
    rfl

theorem restores_uint64 : Restores ofUInt64 toUInt64 := by
  intro n j hform
  have hlt := n.toNat_lt
  have hread : (ofUInt64 n).asRead = .number (.whole n.toNat) :=
    asRead_whole (by omega) (by omega)
  have hfits : 0 ≤ (n.toNat : Int) ∧ (n.toNat : Int).toNat < UInt64.size :=
    ⟨Int.natCast_nonneg _, n.toNat_lt⟩
  obtain rfl : j = ofUInt64 n := hform
  rw [hread, toUInt64, if_pos hfits, Int.toNat_natCast, UInt64.ofNat_toNat]

theorem restores_int32 : Restores (fun n : Int32 => ofInt n.toInt) toInt32 := by
  intro n j hform
  have hlow := n.minValue_le_toInt
  have hhigh := n.toInt_le
  have hleast : Int32.minValue.toInt = -0x80000000 := rfl
  have hmost : Int32.maxValue.toInt = 0x7FFFFFFF := rfl
  have hread : (ofInt n.toInt).asRead = .number (.whole n.toInt) :=
    asRead_whole (by omega) (by omega)
  obtain rfl : j = ofInt n.toInt := hform
  rw [hread, toInt32, if_pos ⟨hlow, hhigh⟩, Int32.ofInt_toInt]

end Json
end Unrouted
