import Unrouted.Board.Snapshot
import Unrouted.Proofs.Json.Form
import Mathlib.Algebra.Group.Nat.Defs

/-!
Reading undoes writing.  A board and each of its parts are read from every text of every form of
their written form: fields in any order, other fields among them, arrays in place of objects,
blanks between the tokens.  An item is kept before its kind is known, so all that is written with
it has to stand for a value.
-/

namespace Unrouted

open Json (Decoded Record Restores Spaced exists_record ok_bind restores_uint64 restores_int32)

/-! ## Decoding -/

theorem Point.restores : Restores Point.encode Point.decode := by
  intro p j hform
  obtain ⟨r, hr, hfields⟩ := exists_record ["x", "y"] rfl (by decide) hform
  have hx : r.required "x" Json.toInt32 = .ok p.x := hfields.required restores_int32 (by simp)
  have hy : r.required "y" Json.toInt32 = .ok p.y := hfields.required restores_int32 (by simp)
  simp only [Point.decode, hr, ok_bind, hx, hy]
  rfl

/-- Pads and vias are written alike. -/
theorem exists_pointRecord {id : UInt64} {net : NetCode} {position : Point} {j : Json}
    (h : (Json.object [("id", .ofUInt64 id), ("net", .ofUInt64 net),
      ("position", position.encode)]).HasForm j) :
    ∃ r, Record.ofJson ["id", "net", "position"] j.asRead = .ok r ∧
      r.required "id" Json.toUInt64 = .ok id ∧ r.required "net" Json.toUInt64 = .ok net ∧
      r.required "position" Point.decode = .ok position := by
  obtain ⟨r, hr, hfields⟩ := exists_record ["id", "net", "position"] rfl (by decide) h
  exact ⟨r, hr, hfields.required restores_uint64 (by simp),
    hfields.required restores_uint64 (by simp), hfields.required Point.restores (by simp)⟩

theorem Pad.restores : Restores Pad.encode Pad.decode := by
  intro p j hform
  obtain ⟨r, hr, hid, hnet, hposition⟩ := exists_pointRecord hform
  simp only [Pad.decode, hr, ok_bind, hid, hnet, hposition]
  rfl

theorem Via.restores : Restores Via.encode Via.decode := by
  intro v j hform
  obtain ⟨r, hr, hid, hnet, hposition⟩ := exists_pointRecord hform
  simp only [Via.decode, hr, ok_bind, hid, hnet, hposition]
  rfl

theorem Track.restores : Restores Track.encode Track.decode := by
  intro t j hform
  obtain ⟨r, hr, hfields⟩ := exists_record ["id", "net", "start", "end"] rfl (by decide) hform
  have hid : r.required "id" Json.toUInt64 = .ok t.id :=
    hfields.required restores_uint64 (by simp [fields])
  have hnet : r.required "net" Json.toUInt64 = .ok t.net :=
    hfields.required restores_uint64 (by simp [fields])
  have hstart : r.required "start" Point.decode = .ok t.start :=
    hfields.required Point.restores (by simp [fields])
  have hfinish : r.required "end" Point.decode = .ok t.finish :=
    hfields.required Point.restores (by simp [fields])
  simp only [Track.decode, hr, ok_bind, hid, hnet, hstart, hfinish]
  rfl

theorem Zone.restores : Restores Zone.encode Zone.decode := by
  intro z j hform
  obtain ⟨r, hr, hfields⟩ := exists_record ["id", "net", "polygons"] rfl (by decide) hform
  have hid : r.required "id" Json.toUInt64 = .ok z.id :=
    hfields.required restores_uint64 (by simp [fields])
  have hnet : r.required "net" Json.toUInt64 = .ok z.net :=
    hfields.required restores_uint64 (by simp [fields])
  have houtlines : r.required "polygons" (Json.toList (Json.toList Point.decode)) =
      .ok z.outlines := hfields.required Point.restores.list.list (by simp [fields, encodeOutline])
  simp only [Zone.decode, hr, ok_bind, hid, hnet, houtlines]
  rfl

theorem Module.restores : Restores Module.encode Module.decode := by
  intro m j hform
  obtain ⟨r, hr, hfields⟩ := exists_record ["id", "pads"] rfl (by decide) hform
  have hid : r.required "id" Json.toUInt64 = .ok m.id :=
    hfields.required restores_uint64 (by simp)
  have hpads : r.optional "pads" [] (Json.toList Pad.decode) = .ok m.pads :=
    hfields.optional Pad.restores.list (by simp) []
  simp only [Module.decode, hr, ok_bind, hid, hpads]
  rfl

theorem Board.restores : Restores Board.encode Board.decode := by
  intro b j hform
  obtain ⟨r, hr, hfields⟩ :=
    exists_record ["modules", "vias", "tracks", "zones"] rfl (by decide) hform
  have hmodules : r.optional "modules" [] (Json.toList Module.decode) = .ok b.modules :=
    hfields.optional Module.restores.list (by simp) []
  have hvias : r.optional "vias" [] (Json.toList Via.decode) = .ok b.vias :=
    hfields.optional Via.restores.list (by simp) []
  have htracks : r.optional "tracks" [] (Json.toList Track.decode) = .ok b.tracks :=
    hfields.optional Track.restores.list (by simp) []
  have hzones : r.optional "zones" [] (Json.toList Zone.decode) = .ok b.zones :=
    hfields.optional Zone.restores.list (by simp) []
  simp only [Board.decode, hr, ok_bind, hmodules, hvias, htracks, hzones]
  rfl

theorem Strategy.restores : Restores Strategy.encode Strategy.decode := by
  intro s j hform
  obtain rfl : j = s.encode := hform
  cases s <;> rfl

theorem Options.restores : Restores Options.encode Options.decode := by
  intro o j hform
  obtain ⟨r, hr, hfields⟩ :=
    exists_record ["parallel_threshold", "candidates", "max_net"] rfl (by decide) hform
  have hthreshold : r.optional "parallel_threshold" default.parallelThreshold Json.toUInt64 =
      .ok o.parallelThreshold := hfields.optional restores_uint64 (by simp) _
  have hstrategy : r.optional "candidates" default.strategy Strategy.decode = .ok o.strategy :=
    hfields.optional Strategy.restores (by simp) _
  have hnet : r.optional "max_net" default.maxNet Json.toUInt64 = .ok o.maxNet :=
    hfields.optional restores_uint64 (by simp) _
  simp only [Options.decode, hr, ok_bind, hthreshold, hstrategy, hnet]
  rfl

theorem ItemId.restores : Restores ItemId.encode ItemId.decode := by
  intro i j hform
  obtain ⟨r, hr, hfields⟩ := exists_record ["kind", "id"] rfl (by decide) hform
  have hreads : Restores Json.string (readKind j.asRead) := by
    intro s k hk
    obtain rfl : k = .string s := hk
    generalize j.asRead = written
    cases written <;> rfl
  have hkind : r.required "kind" (readKind j.asRead) = .ok i.kind :=
    hfields.required hreads (by simp)
  have hid : r.required "id" Json.toUInt64 = .ok i.number :=
    hfields.required restores_uint64 (by simp)
  simp only [ItemId.decode, hr, ok_bind, hkind, hid]
  cases i <;> rfl

namespace Item

variable {fields : List (String × Json)} {kind : String}

theorem filter_type {all rest : List (String × Json)} {k : Json}
    (hperm : all.Perm (("type", k) :: rest)) (hrest : ∀ f ∈ rest, f.1 ≠ "type") :
    (all.filter fun f => f.1 == "type") = [("type", k)] ∧
      (all.filter fun f => f.1 != "type").Perm rest := by
  have hnone : (rest.filter fun f => f.1 == "type") = [] :=
    List.filter_eq_nil_iff.2 fun f hf => by simpa using hrest f hf
  have hself : (rest.filter fun f => f.1 != "type") = rest :=
    List.filter_eq_self.2 fun f hf => by simpa using hrest f hf
  have hnamed := hperm.filter fun f => f.1 == "type"
  have hothers := hperm.filter fun f => f.1 != "type"
  rw [List.filter_cons_of_pos (by rfl), hnone] at hnamed
  rw [List.filter_cons_of_neg (by simp), hself] at hothers
  exact ⟨List.perm_singleton.1 hnamed, hothers⟩

/-- The kind of an item is found wherever it stands, and the rest is a form of what is written
for the item without its kind. -/
theorem decode_of_hasForm {j : Json} (hkind : "type" ∉ fields.map Prod.fst)
    (hform : (Json.object (("type", .string kind) :: fields)).HasForm j) :
    ∃ rest, (Json.object fields).HasForm rest ∧ decode j.asRead = ofKind kind rest.asRead := by
  obtain ⟨fields', hfields, hform⟩ := hform
  obtain ⟨k, more, rfl, hk, hmore⟩ := hfields
  obtain rfl : k = .string kind := hk
  rcases hform with rfl | ⟨extras, all, rfl, hperm, hextras⟩
  · exact ⟨.array (more.map Prod.snd), ⟨more, hmore, .inl rfl⟩, rfl⟩
  · have hother : ∀ f ∈ more ++ extras, f.1 ≠ "type" := by
      intro f hf hname
      rcases List.mem_append.1 hf with hf | hf
      · exact hkind (hname ▸ hmore.keys_eq ▸ List.mem_map_of_mem hf)
      · exact (hextras f hf).1 (hname ▸ List.mem_cons_self)
    obtain ⟨hnamed, hrest⟩ := filter_type hperm hother
    have hextras' : ∀ e ∈ extras, e.1 ∉ fields.map Prod.fst ∧ e.2.isSimple = true := fun e he =>
      (hextras e he).imp_left fun hnew hmem => hnew (List.mem_cons_of_mem _ hmem)
    refine ⟨.object (all.filter fun f => f.1 != "type"),
      ⟨more, hmore, .inr ⟨extras, _, rfl, hrest, hextras'⟩⟩, ?_⟩
    rw [Json.asRead, Json.asRead, decode, Json.fieldsAsRead_eq, Json.fieldsAsRead_eq,
      List.filter_map, List.filter_map]
    simp only [Function.comp_def, hnamed]
    rfl

theorem restores : Restores encode decode := by
  intro item j hform
  cases item with
  | pad p =>
    obtain ⟨rest, hrest, hdecode⟩ := decode_of_hasForm (by simp [Pad.fields]) hform
    rw [hdecode, ofKind, Pad.restores p rest hrest]
    rfl
  | via v =>
    obtain ⟨rest, hrest, hdecode⟩ := decode_of_hasForm (by simp [Via.fields]) hform
    rw [hdecode, ofKind, Via.restores v rest hrest]
    rfl
  | track t =>
    obtain ⟨rest, hrest, hdecode⟩ := decode_of_hasForm (by simp [Track.fields]) hform
    rw [hdecode, ofKind, Track.restores t rest hrest]
    rfl
  | zone z =>
    obtain ⟨rest, hrest, hdecode⟩ := decode_of_hasForm (by simp [Zone.fields]) hform
    rw [hdecode, ofKind, Zone.restores z rest hrest]
    rfl

end Item

/-! ## Written forms -/

open Json (modest_list modest_object modest_ofInt modest_ofUInt64 modest_string)

theorem Point.modest (p : Point) (n : Nat) : p.encode.Modest (n + 1) :=
  modest_object (by simp [modest_ofInt])

theorem Pad.modest (p : Pad) (n : Nat) : p.encode.Modest (n + 2) :=
  modest_object (by simp [fields, modest_ofUInt64, Point.modest])

theorem Via.modest (v : Via) (n : Nat) : v.encode.Modest (n + 2) :=
  modest_object (by simp [fields, modest_ofUInt64, Point.modest])

theorem Track.modest (t : Track) (n : Nat) : t.encode.Modest (n + 2) :=
  modest_object (by simp [fields, modest_ofUInt64, Point.modest])

theorem Zone.modest (z : Zone) (n : Nat) : z.encode.Modest (n + 4) := by
  have houtlines : (Json.array (z.outlines.map encodeOutline)).Modest (n + 3) :=
    modest_list (fun outline => modest_list (fun p => p.modest n) outline) z.outlines
  exact modest_object (by simp [fields, modest_ofUInt64, houtlines])

theorem Module.modest (m : Module) (n : Nat) : m.encode.Modest (n + 4) := by
  have hpads := modest_list (fun p : Pad => p.modest n) m.pads
  exact modest_object (by simp [modest_ofUInt64, hpads])

theorem Board.modest (b : Board) (n : Nat) : b.encode.Modest (n + 6) := by
  have hmodules := modest_list (fun m : Module => m.modest n) b.modules
  have hvias := modest_list (fun v : Via => v.modest (n + 2)) b.vias
  have htracks := modest_list (fun t : Track => t.modest (n + 2)) b.tracks
  have hzones := modest_list (fun z : Zone => z.modest n) b.zones
  exact modest_object (by simp [hmodules, hvias, htracks, hzones])

theorem ItemId.modest (i : ItemId) (n : Nat) : i.encode.Modest (n + 1) :=
  modest_object (by simp [modest_string, modest_ofUInt64])

theorem Options.modest (o : Options) (n : Nat) : o.encode.Modest (n + 1) :=
  modest_object (by simp [Strategy.encode, modest_string, modest_ofUInt64])

theorem Item.modest (item : Item) (n : Nat) : item.encode.Modest (n + 4) := by
  cases item with
  | pad p => exact (p.modest (n + 2)).cons (modest_string "pad" (n + 3))
  | via v => exact (v.modest (n + 2)).cons (modest_string "via" (n + 3))
  | track t => exact (t.modest (n + 2)).cons (modest_string "track" (n + 3))
  | zone z => exact (z.modest n).cons (modest_string "zone" (n + 3))

/-! ## Reading -/

/-- Reading gives a value back from every text of every form of it. -/
def ReadsBack {α : Type} (encode : α → Json) (read : String → Decoded α) : Prop :=
  ∀ a j cs, (encode a).HasForm j → Spaced j.tokens cs → read (String.ofList cs) = .ok a

theorem readText_of_spaced {α : Type} (decode : Json → Decoded α) {v j : Json} {cs : List Char}
    (hv : v.isPlain = true) (hform : v.HasForm j) (h : Spaced j.tokens cs) :
    Json.readText decode (String.ofList cs) = decode j.asRead := by
  rw [Json.readText, Json.ofText?_of_spaced (Json.isPlain_of_hasForm hv hform) h]

theorem Json.Restores.readsBack {α : Type} {encode : α → Json} {decode : Json → Decoded α}
    (h : Restores encode decode) (hplain : ∀ a, (encode a).isPlain = true) :
    ReadsBack encode (Json.readText decode) := by
  intro a j cs hform hspaced
  rw [readText_of_spaced decode (hplain a) hform hspaced, h a j hform]

/-- What is written is read back. -/
theorem ReadsBack.text {α : Type} {encode : α → Json} {read : String → Decoded α}
    (h : ReadsBack encode read) (a : α) : read (encode a).text = .ok a :=
  h a (encode a) _ (Json.HasForm.refl _) (Json.spaced_text _)

theorem Item.read_of_spaced {item : Item} {j : Json} {cs : List Char}
    (hform : item.encode.HasForm j) (h : Spaced j.tokens cs) :
    Item.read (String.ofList cs) =
      if j.asRead.legible then .ok item else .error .illegible := by
  have hmodest := item.modest 0
  have hbelow : 0 + 4 ≤ Json.nesting := by decide
  have hdepth : ¬Json.nesting < j.asRead.depth := Nat.not_lt.2
    (Nat.le_trans (Json.depth_asRead_le hform) (Nat.le_trans hmodest.depth hbelow))
  rw [Item.read, readText_of_spaced _ hmodest.plain hform h, Json.keep, if_neg hdepth]
  cases j.asRead.legible with
  | true => exact Item.restores item j hform
  | false => rfl

/-- However boards, their parts and options are written down, they are read back.  An item is
kept before its kind is known, so everything that is written with it has to stand for a value. -/
structure Faithful : Prop where
  board : ReadsBack Board.encode Board.read
  module : ReadsBack Module.encode Module.read
  itemId : ReadsBack ItemId.encode ItemId.read
  options : ReadsBack Options.encode Options.read
  item : ∀ (item : Item) (j : Json) (cs : List Char), item.encode.HasForm j →
    j.asRead.legible = true → Spaced j.tokens cs → Item.read (String.ofList cs) = .ok item

theorem faithful_snapshot : Faithful where
  board := Board.restores.readsBack fun b => (b.modest 0).plain
  module := Module.restores.readsBack fun m => (m.modest 0).plain
  itemId := ItemId.restores.readsBack fun i => (i.modest 0).plain
  options := Options.restores.readsBack fun o => (o.modest 0).plain
  item item j cs hform hlegible hspaced := by
    rw [Item.read_of_spaced hform hspaced, if_pos hlegible]

/-- A via whose fields come in reverse, after a note. -/
def notedVia (note : Nat) : Json :=
  .object [("note", .ofNat note), ("position", Point.encode ⟨1, 2⟩), ("net", .ofNat 4),
    ("id", .ofNat 7), ("type", .string "via")]

theorem hasForm_notedVia (note : Nat) :
    (Item.via { id := 7, net := 4, position := ⟨1, 2⟩ }).encode.HasForm (notedVia note) := by
  refine Json.hasForm_perm (List.reverse_perm [_, _, _, _, _]) fun e he => ?_
  obtain rfl := List.mem_singleton.1 he
  exact ⟨by simp [Via.fields], rfl⟩

/-- The note does not fit 64 bits, which does no harm.  A module may be an array. -/
theorem faithful_notedVia :
    (notedVia (10 ^ 30)).asRead.legible = true ∧
      Item.read (String.ofList
        ((notedVia (10 ^ 30)).tokens.flatMap fun t => [' ', '\n'] ++ t.text)) =
          .ok (.via { id := 7, net := 4, position := ⟨1, 2⟩ }) ∧
      Module.read (Json.array [.ofUInt64 3, .array []]).text = .ok { id := 3, pads := [] } := by
  have hlegible : (notedVia (10 ^ 30)).asRead.legible = true := by decide +kernel
  have hspaced : Spaced (notedVia (10 ^ 30)).tokens
      ((notedVia (10 ^ 30)).tokens.flatMap fun t => [' ', '\n'] ++ t.text) :=
    Json.spaced_flatMap (by simp [Json.Lexer.isBlank]) (notedVia (10 ^ 30)).tokens
  have hread := faithful_snapshot.item _ (notedVia (10 ^ 30)) _ (hasForm_notedVia (10 ^ 30))
    hlegible hspaced
  have hvalues : (Module.encode { id := 3, pads := [] }).HasForm
      (.array [.ofUInt64 3, .array []]) := Json.hasForm_values _
  exact ⟨hlegible, hread, faithful_snapshot.module _ _ _ hvalues (Json.spaced_text _)⟩

/-- With a note that no binary64 number reaches the via is not read. -/
theorem not_faithful_notedVia :
    (Item.via { id := 7, net := 4, position := ⟨1, 2⟩ }).encode.HasForm (notedVia (10 ^ 400)) ∧
      Item.read (notedVia (10 ^ 400)).text = .error .illegible := by
  have hvalue : (Json.Numeral.ofInt (10 ^ 400 : Nat)).value? = none := by decide +kernel
  have hlegible : (notedVia (10 ^ 400)).asRead.legible = false := by
    rw [notedVia, Json.asRead, Json.fieldsAsRead, Json.ofNat, Json.asRead, hvalue]
    rfl
  refine ⟨hasForm_notedVia _, ?_⟩
  rw [Json.text, Item.read_of_spaced (hasForm_notedVia _) (Json.spaced_text _), hlegible]
  rfl

end Unrouted
