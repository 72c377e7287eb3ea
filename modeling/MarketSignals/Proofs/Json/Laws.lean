import MarketSignals.Proofs.Json.Text

/-!
# What a codec owes its type

A codec is lawful when it writes only plain trees, reads each of them as the value they
were written for, and gives nothing from any tree that it could not write again.  The
laws are put together the way codecs are: a record field by field, a tagged value from
its tag and the record behind it.

## Main definitions

* `Codec.Lawful` — the laws, with the values that can be written.

## Main results

* `Codec.Lawful.read?_write` — a value that can be written reads back from its text.
* `Codec.Lawful.read?_write_of_read?` — so does whatever was read from any text.
-/

namespace MarketSignals

/-! ## Places -/

namespace Json

/-- How deep a tagged value may be at a place. -/
def Place.room : Place → Nat
  | .direct depth => deepest - depth
  | .held => deepest

/-- A bracket takes at most one level. -/
theorem Place.le_room_inside {place : Place} {n : Nat} (h : n + 1 ≤ place.room) :
    n ≤ place.inside.room := by
  cases place with
  | direct depth =>
      simp only [room, inside] at h ⊢
      omega
  | held => exact Nat.le_of_succ_le h

end Json

/-! ## Laws -/

/-- A codec that reads what it writes and can write what it reads. -/
class Codec.Lawful (α : Type) [Codec α] where
  /-- The values that have a text. -/
  Writable : α → Prop
  /-- The most levels of brackets in what is written. -/
  depth : Nat
  plain_encode : ∀ {x : α}, Writable x → (encode x).Plain depth
  decode?_encode : ∀ {x : α} {place : Json.Place}, Writable x → depth ≤ place.room →
    decode? place (encode x) = some x
  writable_of_decode? : ∀ {place : Json.Place} {j : Json} {x : α},
    decode? place j = some x → Writable x

/-- A codec that writes `null` for no value. -/
class Codec.NeverNull (α : Type) [Codec α] [Codec.Lawful α] : Prop where
  encode_ne_null : ∀ {x : α}, Lawful.Writable x → encode x ≠ .null

namespace Codec.Lawful

variable {α : Type} [Codec α] [Lawful α]

/-- A value that can be written reads back from its text. -/
theorem read?_write {x : α} (hx : Writable x) (hdepth : depth α ≤ Json.deepest) :
    read? α (write x) = some x := by
  simp only [read?, write, (plain_encode hx).parse?_text, Option.bind_some]
  exact decode?_encode hx hdepth

/-- Whatever was read from a text can be written. -/
theorem writable_of_read? {text : String} {x : α} (hread : read? α text = some x) :
    Writable x := by
  obtain ⟨j, -, hdecode⟩ := Option.bind_eq_some_iff.mp hread
  exact writable_of_decode? hdecode

/-- Whatever was read from a text reads back from its own text. -/
theorem read?_write_of_read? {text : String} {x : α} (hread : read? α text = some x)
    (hdepth : depth α ≤ Json.deepest) : read? α (write x) = some x :=
  read?_write (writable_of_read? hread) hdepth

end Codec.Lawful

/-! ## Records -/

namespace Json

open Codec.Lawful (Writable depth plain_encode decode?_encode writable_of_decode?)

theorem mem_object_iff {members : List (String × Json)} {m : Option String × Json} :
    m ∈ (members.map fun m => ((some m.1, m.2) : Option String × Json)) ↔
      ∃ name j, (name, j) ∈ members ∧ m = (some name, j) := by
  simp only [List.mem_map, Prod.exists, eq_comm]

theorem Plain.object {room : Nat} {members : List (String × Json)}
    (hmembers : ∀ m ∈ members, Plain room m.2) : Plain (room + 1) (object members) := by
  refine .obj ?_ ?_
  · intro m hm
    obtain ⟨name, j, -, rfl⟩ := mem_object_iff.mp hm
    rfl
  · intro m hm
    obtain ⟨name, j, hj, rfl⟩ := mem_object_iff.mp hm
    exact hmembers (name, j) hj

theorem Plain.tagged {room : Nat} (tag name : String) {members : List (String × Json)}
    (hmembers : ∀ m ∈ members, Plain room m.2) : Plain (room + 1) (tagged tag name members) := by
  refine Plain.object ?_
  intro m hm
  rcases List.mem_cons.mp hm with rfl | hm
  · exact .str name
  · exact hmembers m hm

/-- A plain tree has room to spare. -/
theorem Plain.mono {room wider : Nat} {j : Json} (hj : Plain room j) (hroom : room ≤ wider) :
    Plain wider j := by
  induction hj generalizing wider with
  | null => exact .null
  | bool b => exact .bool b
  | num canonical float => exact .num canonical float
  | str s => exact .str s
  | arr _ ih =>
      obtain ⟨wider, rfl⟩ : ∃ n, wider = n + 1 := ⟨wider - 1, by omega⟩
      exact .arr fun x hx => ih x hx (by omega)
  | obj names _ ih =>
      obtain ⟨wider, rfl⟩ : ∃ n, wider = n + 1 := ⟨wider - 1, by omega⟩
      exact .obj names fun m hm => ih m hm (by omega)

/-- What is read back one by one is read back as a list. -/
theorem mapM_map {α β : Type} {f : α → β} {g : β → Option α} {xs : List α}
    (h : ∀ x ∈ xs, g (f x) = some x) : (xs.map f).mapM g = some xs := by
  induction xs with
  | nil => rfl
  | cons x xs ih =>
      rw [List.map_cons, List.mapM_cons, h x List.mem_cons_self,
        ih fun y hy => h y (List.mem_cons_of_mem _ hy)]
      rfl

/-- What is read as a list is read one by one. -/
theorem exists_of_mapM {α β : Type} {g : β → Option α} {js : List β} {xs : List α}
    (h : js.mapM g = some xs) : ∀ x ∈ xs, ∃ j, g j = some x := by
  induction js generalizing xs with
  | nil =>
      cases h
      intro x hx
      cases hx
  | cons j js ih =>
      rw [List.mapM_cons] at h
      obtain ⟨y, hy, h⟩ := Option.bind_eq_some_iff.mp h
      obtain ⟨ys, hys, h⟩ := Option.bind_eq_some_iff.mp h
      cases h
      intro x hx
      rcases List.mem_cons.mp hx with rfl | hx
      · exact ⟨j, hy⟩
      · exact ih hys x hx

theorem knownMembers?_map_some {names : List String} {members : List (String × Json)}
    (hknown : (members.map (·.1)).Sublist names) (hnames : names.Nodup) :
    knownMembers? names (members.map fun m => (some m.1, m.2)) = some members := by
  have hfilter : members.filter (fun m => names.contains m.1) = members := by
    rw [List.filter_eq_self]
    intro m hm
    exact List.contains_iff_mem.mpr (hknown.subset (List.mem_map_of_mem hm))
  have hnamed : (members.map fun m => ((some m.1, m.2) : Option String × Json)).mapM
      (fun m => m.1.map fun k => (k, m.2)) = some members :=
    mapM_map fun _ _ => rfl
  simp only [knownMembers?, hnamed, Option.bind_eq_bind, Option.bind_some, hfilter,
    hnames.sublist hknown, if_true]

/-- The object that a record writes is that record. -/
theorem record?_object {names : List String} {members : List (String × Json)} (place : Place)
    (hknown : (members.map (·.1)).Sublist names) (hnames : names.Nodup) :
    record? names place (object members) = some ⟨place.inside, false, members⟩ := by
  simp only [record?, object, knownMembers?_map_some hknown hnames, Option.map_some]

variable {α : Type} [Codec α] [Codec.Lawful α]

theorem plain_nil {room : Nat} : ∀ m ∈ ([] : List (String × Json)), Plain room m.2 := by
  intro m hm
  cases hm

/-- A field that can be written is plain, in a record with room for it. -/
theorem plain_cons {room : Nat} {members : List (String × Json)} {name : String} {x : α}
    (hx : Writable x) (hroom : depth α ≤ room) (hmembers : ∀ m ∈ members, Plain room m.2) :
    ∀ m ∈ (name, Codec.encode x) :: members, Plain room m.2 := by
  intro m hm
  rcases List.mem_cons.mp hm with rfl | hm
  · exact (plain_encode hx).mono hroom
  · exact hmembers m hm

/-- Reading goes on with what was read. -/
theorem bind_of_some {β γ : Type} {o : Option β} {f : β → Option γ} {b : β} {c : γ}
    (ho : o = some b) (hf : f b = some c) : o.bind f = some c := by
  rw [ho, Option.bind_some, hf]

namespace Record

/-- A field that was written is read back. -/
theorem required?_encode {r : Record} {name : String} {x : α}
    (hfield : r.fields.lookup name = some (Codec.encode x)) (hx : Writable x)
    (hroom : depth α ≤ r.place.room) : r.required? α name = some x := by
  simp only [required?, get?, hfield, Option.bind_some, decode?_encode hx hroom]

theorem default?_encode {r : Record} {name : String} {fallback x : α}
    (hfield : r.fields.lookup name = some (Codec.encode x)) (hx : Writable x)
    (hroom : depth α ≤ r.place.room) : r.default? name fallback = some x := by
  simp only [default?, get?, hfield, decode?_encode hx hroom]

theorem writable_of_required? {r : Record} {name : String} {x : α}
    (h : r.required? α name = some x) : Writable x := by
  obtain ⟨j, -, hj⟩ := Option.bind_eq_some_iff.mp h
  exact writable_of_decode? hj

theorem writable_of_default? {r : Record} {name : String} {fallback x : α}
    (hfallback : Writable fallback) (h : r.default? name fallback = some x) : Writable x := by
  unfold default? at h
  split at h
  · cases h
    exact hfallback
  · exact writable_of_decode? h

end Record

/-! ## Tagged values and plain cases -/

/-- An object with one tag splits when it can be held. -/
theorem tagged?_obj {α : Type} {tag : String} {cases : List (String × α)} {place : Place}
    {members rest : List (Option String × Json)} {k : Option String} {t : Json}
    (hholdable : holdable place.room (.obj members) = true)
    (hpartition : members.partition (fun m => m.1 == some tag) = ([(k, t)], rest)) :
    tagged? tag cases place (.obj members) = (variant? cases place t).map (·, .obj rest) := by
  cases place with
  | direct depth =>
      simp only [Place.room] at hholdable
      simp only [tagged?, hholdable, hpartition, if_true]
  | held =>
      simp only [Place.room] at hholdable
      simp only [tagged?, hholdable, hpartition, if_true]

/-- The tag of a tagged value is the one member with its name. -/
theorem partition_tag {tag : String} {j : Json} {members : List (String × Json)}
    (htag : tag ∉ members.map (·.1)) :
    List.partition (fun m : Option String × Json => m.1 == some tag)
        ((some tag, j) :: members.map fun m => (some m.1, m.2)) =
      ([(some tag, j)], members.map fun m => (some m.1, m.2)) := by
  have hother : ∀ m ∈ members.map (fun m => ((some m.1, m.2) : Option String × Json)),
      (m.1 == some tag) = false := by
    intro m hm
    obtain ⟨other, x, hx, rfl⟩ := mem_object_iff.mp hm
    rw [beq_eq_false_iff_ne]
    rintro ⟨⟩
    exact htag (List.mem_map_of_mem hx)
  rw [List.partition_eq_filter_filter, List.filter_cons_of_pos (by simp),
    List.filter_cons_of_neg (by simp), List.filter_eq_nil_iff.mpr, List.filter_eq_self.mpr]
  · intro m hm
    simp [hother m hm]
  · intro m hm
    simp [hother m hm]

/-- A tagged value splits into its case and the object of its other members. -/
theorem tagged?_tagged {α : Type} {tag name : String} {cases : List (String × α)} {case : α}
    {members : List (String × Json)} {room : Nat} {place : Place}
    (hplain : Plain room (tagged tag name members)) (hroom : room ≤ place.room)
    (hcase : cases.lookup name = some case) (htag : tag ∉ members.map (·.1)) :
    tagged? tag cases place (tagged tag name members) = some (case, object members) := by
  have hsplit : tagged? tag cases place (tagged tag name members) =
      (variant? cases place (ofString name)).map (·, object members) :=
    tagged?_obj (hplain.holdable hroom) (partition_tag htag)
  rw [hsplit, ofString, variant?, hcase]
  rfl

theorem choice?_ofString {α : Type} (cases : List (String × α)) (place : Place) (name : String) :
    choice? cases place (ofString name) = cases.lookup name := by
  cases place <;> rfl

end Json

/-! ## Plain types -/

namespace Codec.Lawful

open Json (Plain Place)

instance : Lawful Bool where
  Writable _ := True
  depth := 0
  plain_encode _ := .bool _
  decode?_encode _ _ := rfl
  writable_of_decode? _ := trivial

/-- A count can be written when it fits in 64 bits. -/
instance : Lawful Nat where
  Writable n := n < UInt64.size
  depth := 0
  plain_encode hn :=
    .num (Decimal.Numeral.canonical_ofNat _) (Decimal.Numeral.isSome_toFloat?_ofNat hn)
  decode?_encode {n place} hn _ := by
    show (Decimal.Numeral.ofNat n).toNat?.filter (· < UInt64.size) = some n
    rw [Decimal.Numeral.toNat?_ofNat]
    simp [hn]
  writable_of_decode? {place j n} h := by
    cases j with
    | num digits => exact of_decide_eq_true (Option.filter_eq_some_iff.mp h).2
    | _ => cases h

instance : Lawful UInt64 where
  Writable _ := True
  depth := 0
  plain_encode {n} _ := plain_encode (α := Nat) n.toNat_lt
  decode?_encode {n place} _ hplace := by
    show (decode? place (encode n.toNat) : Option Nat).map UInt64.ofNat = some n
    rw [decode?_encode n.toNat_lt hplace, Option.map_some, UInt64.ofNat_toNat]
  writable_of_decode? _ := trivial

/-- A float can be written when it is finite. -/
instance : Lawful Float where
  Writable x := x.isFinite = true
  depth := 0
  plain_encode {x} hx := by
    obtain ⟨n, hn, hcanonical, hfloat⟩ := Decimal.Style.json.exists_numeral? hx
    show Plain 0 (Json.ofFloat x)
    rw [Json.ofFloat, hn]
    exact .num hcanonical (by rw [hfloat]; rfl)
  decode?_encode {x place} hx _ := by
    obtain ⟨n, hn, hcanonical, hfloat⟩ := Decimal.Style.json.exists_numeral? hx
    show decode? place (Json.ofFloat x) = some x
    rw [Json.ofFloat, hn]
    exact hfloat
  writable_of_decode? {place j x} h := by
    cases j with
    | num digits => exact Decimal.Numeral.isFinite_of_toFloat? h
    | _ => cases h

instance : NeverNull Nat where
  encode_ne_null _ h := by cases h

instance : NeverNull Float where
  encode_ne_null {x} hx h := by
    obtain ⟨n, hn, -, -⟩ := Decimal.Style.json.exists_numeral? hx
    rw [show encode x = Json.ofFloat x from rfl, Json.ofFloat, hn] at h
    cases h

instance : Lawful String where
  Writable _ := True
  depth := 0
  plain_encode _ := .str _
  decode?_encode _ _ := rfl
  writable_of_decode? _ := trivial

/-- No value is written `null`, which no value of the type is. -/
instance {α : Type} [Codec α] [Lawful α] [NeverNull α] : Lawful (Option α) where
  Writable o := ∀ x ∈ o, Writable x
  depth := depth α
  plain_encode {o} ho := by
    cases o with
    | none => exact .null
    | some x => exact plain_encode (ho x rfl)
  decode?_encode {o place} ho hplace := by
    cases o with
    | none => rfl
    | some x =>
        have hx := decode?_encode (ho x rfl) hplace
        have hnull := NeverNull.encode_ne_null (ho x rfl)
        show decode? place (encode x) = some (some x)
        generalize encode x = j at hx hnull
        cases j with
        | null => exact absurd rfl hnull
        | _ => exact congrArg (Option.map some) hx
  writable_of_decode? {place j o} h := by
    cases j with
    | null =>
        cases h
        intro x hx
        cases hx
    | _ =>
        obtain ⟨x, hx, rfl⟩ := Option.map_eq_some_iff.mp h
        rintro _ ⟨⟩
        exact writable_of_decode? hx

instance {α : Type} [Codec α] [Lawful α] : Lawful (List α) where
  Writable xs := ∀ x ∈ xs, Writable x
  depth := depth α + 1
  plain_encode {xs} hxs := by
    refine .arr ?_
    intro j hj
    obtain ⟨x, hx, rfl⟩ := List.mem_map.mp hj
    exact plain_encode (hxs x hx)
  decode?_encode {xs place} hxs hplace := by
    have hinside : depth α ≤ place.inside.room := Json.Place.le_room_inside hplace
    exact Json.mapM_map fun x hx => decode?_encode (hxs x hx) hinside
  writable_of_decode? {place j xs} h := by
    cases j with
    | arr items =>
        intro x hx
        obtain ⟨j, hj⟩ := Json.exists_of_mapM h x hx
        exact writable_of_decode? hj
    | _ => cases h

end Codec.Lawful

/-! ## Optional fields -/

namespace Json.Record

open Codec.Lawful (Writable depth)

variable {α : Type} [Codec α] [Codec.Lawful α] [Codec.NeverNull α]

theorem writable_none : Writable (none : Option α) := by
  intro x hx
  cases hx

theorem optional?_encode {r : Record} {name : String} {x : Option α}
    (hfield : r.fields.lookup name = some (Codec.encode x)) (hx : Writable x)
    (hroom : depth α ≤ r.place.room) : r.optional? α name = some x :=
  default?_encode hfield hx hroom

theorem writable_of_optional? {r : Record} {name : String} {x : Option α}
    (h : r.optional? α name = some x) : Writable x :=
  writable_of_default? writable_none h

/-- A written record is an object, where the field may hold `null`. -/
theorem nullable?_encode {r : Record} {name : String} {x : Option α}
    (hfield : r.fields.lookup name = some (Codec.encode x)) (hx : Writable x)
    (hroom : depth α ≤ r.place.room) : r.nullable? α name = some x := by
  unfold nullable?
  split
  · exact required?_encode hfield hx hroom
  · exact optional?_encode hfield hx hroom

theorem writable_of_nullable? {r : Record} {name : String} {x : Option α}
    (h : r.nullable? α name = some x) : Writable x := by
  unfold nullable? at h
  split at h
  · exact writable_of_required? h
  · exact writable_of_optional? h

end Json.Record

end MarketSignals
