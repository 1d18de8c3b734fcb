import DurableFlow.Settings
import DurableFlow.Table
import DurableFlow.Proofs.Assembly.ValueTexts
import Mathlib.Tactic.ByContra

/-!
# Decoding settings

Settings may be written with their slots in any order, and a slot that holds its default may be left
out. However they are written, they are read as what they are when their contents are in order, and
refused for what is wrong with them otherwise. Whatever is accepted has contents in order, and is
read again from how it is written.

Main statements: `Settings.read_of_writes`, `Settings.read_exact`.
-/

namespace DurableFlow

/-- Fields fill the slots that are due, each at most once and in any order; only optional ones may be
left out. -/
structure Fills (due : List (String × Json)) (optional : List String)
    (fields : List (String × Json)) : Prop where
  nodup : (fields.map Prod.fst).Nodup
  subset : ∀ f ∈ fields, f ∈ due
  complete : ∀ f ∈ due, f.1 ∉ optional → f ∈ fields

/-! ## Fields of a document -/

namespace Document

variable {fields : List (String × Json)} {k : String} {v : Json}

theorem ofFields_eq_map (fields : List (String × Json)) :
    ofFields fields = fields.map fun f => (some f.1, ofJson f.2) := by
  induction fields with
  | nil => rfl
  | cons f fs ih => rw [ofFields, ih, List.map_cons]

theorem filter_ofFields (p : Option String → Bool) (fields : List (String × Json)) :
    ((ofFields fields).filter fun f => p f.1) = ofFields (fields.filter fun f => p (some f.1)) := by
  rw [ofFields_eq_map, ofFields_eq_map, List.filter_map]
  rfl

theorem slot?_of_mem (hnodup : (fields.map Prod.fst).Nodup) (h : (k, v) ∈ fields) :
    slot? k (ofFields fields) = some (some (ofJson v)) := by
  have hfilter : (fields.filter fun f => some f.1 == some k) = [(k, v)] := by
    rw [← Table.filter_key_eq hnodup h]
    refine List.filter_congr fun f _ => ?_
    rw [Bool.eq_iff_iff]
    simp
  rw [slot?, filter_ofFields (· == some k), hfilter]
  rfl

theorem slot?_of_not_mem (h : k ∉ fields.map Prod.fst) : slot? k (ofFields fields) = some none := by
  have hfilter : (fields.filter fun f => some f.1 == some k) = [] := by
    refine List.filter_eq_nil_iff.2 fun f hf heq => h ?_
    obtain rfl : f.1 = k := by simpa using heq
    exact List.mem_map_of_mem hf
  rw [slot?, filter_ofFields (· == some k), hfilter]
  rfl

/-- The slots of an object are looked up one by one, unless a field is refused. -/
theorem slots_object (names : List String) {strict : Bool}
    (h : strict = true → ∀ f ∈ fields, f.1 ∈ names) :
    slots names strict (object (ofFields fields)) =
      names.mapM fun name => slot? name (ofFields fields) := by
  refine if_pos (List.all_eq_true.2 fun f hf => ?_)
  rw [ofFields_eq_map] at hf
  obtain ⟨g, hg, rfl⟩ := List.mem_map.1 hf
  cases strict with
  | false => rfl
  | true => simpa using h rfl g hg

end Document

/-! ## Filled slots -/

namespace Fills

variable {due fields : List (String × Json)} {optional : List String} {k : String} {v : Json}

theorem mem_keys (h : Fills due optional fields) {f : String × Json} (hf : f ∈ fields) :
    f.1 ∈ due.map Prod.fst :=
  List.mem_map_of_mem (h.subset f hf)

theorem all (hdue : (due.map Prod.fst).Nodup) : Fills due optional due :=
  ⟨hdue, fun _ hf => hf, fun _ hf _ => hf⟩

theorem perm (h : Fills due optional fields) {fields' : List (String × Json)}
    (hperm : fields.Perm fields') : Fills due optional fields' where
  nodup := (hperm.map Prod.fst).nodup_iff.1 h.nodup
  subset f hf := h.subset f (hperm.mem_iff.2 hf)
  complete f hf hk := hperm.mem_iff.1 (h.complete f hf hk)

theorem filter (h : Fills due optional fields) (p : String × Json → Bool) :
    Fills (due.filter p) optional (fields.filter p) where
  nodup := h.nodup.sublist (List.filter_sublist.map Prod.fst)
  subset f hf := List.mem_filter.2 ⟨h.subset f (List.mem_filter.1 hf).1, (List.mem_filter.1 hf).2⟩
  complete f hf hk :=
    List.mem_filter.2 ⟨h.complete f (List.mem_filter.1 hf).1 hk, (List.mem_filter.1 hf).2⟩

/-- A slot holds what is due, or may be left out and is. -/
theorem slot? (h : Fills due optional fields) (hdue : (due.map Prod.fst).Nodup) (hv : (k, v) ∈ due) :
    Document.slot? k (Document.ofFields fields) = some (some (Document.ofJson v)) ∨
      k ∈ optional ∧ Document.slot? k (Document.ofFields fields) = some none := by
  by_cases hmem : (k, v) ∈ fields
  · exact .inl (Document.slot?_of_mem h.nodup hmem)
  · refine .inr ⟨by_contra fun hk => hmem (h.complete (k, v) hv hk),
      Document.slot?_of_not_mem fun hk => hmem ?_⟩
    obtain ⟨⟨k', w⟩, hw, rfl⟩ := List.mem_map.1 hk
    have heq := Table.filter_key_eq hdue hv
    have hw' : (k', w) ∈ due.filter fun f => decide (f.1 = k') := by simp [h.subset _ hw]
    rw [heq, List.mem_singleton] at hw'
    exact hw' ▸ hw

/-- A slot that may not be left out holds what is due. -/
theorem slot?_eq (h : Fills due optional fields) (hdue : (due.map Prod.fst).Nodup)
    (hv : (k, v) ∈ due) (hk : k ∉ optional) :
    Document.slot? k (Document.ofFields fields) = some (some (Document.ofJson v)) :=
  (h.slot? hdue hv).resolve_right fun hout => hk hout.1

end Fills

namespace Json

theorem fieldsWhole {fields : List (String × Json)} (h : ∀ f ∈ fields, f.2.IsWhole) :
    FieldsWhole fields := by
  induction fields with
  | nil => trivial
  | cons f fs ih => exact ⟨h f List.mem_cons_self, ih fun g hg => h g (List.mem_cons_of_mem f hg)⟩

theorem isWhole_ofNat {n : Nat} (h : n < UInt32.size) : (ofNat n).IsWhole :=
  show -(signBit : Int) ≤ n ∧ (n : Int) < UInt64.size by simp only [signBit, UInt32.size, UInt64.size] at *; omega

end Json

namespace Document

/-- Fields have values when the documents under them have. -/
theorem fieldsWithin_ofFields {fields : List (String × Json)} (depth : Nat)
    (h : ∀ f ∈ fields, ((ofJson f.2).valueWithin depth).isSome = true) :
    (fieldsWithin (ofFields fields) depth).isSome = true := by
  induction fields with
  | nil => rfl
  | cons f fs ih =>
    obtain ⟨v, hv⟩ := Option.isSome_iff_exists.1 (h f List.mem_cons_self)
    obtain ⟨vs, hvs⟩ := Option.isSome_iff_exists.1 (ih fun g hg => h g (List.mem_cons_of_mem f hg))
    simp [ofFields, fieldsWithin, hv, hvs]

theorem ofJson_ofNat (n : Nat) : ofJson (Json.ofNat n) = number (some (.int n)) := rfl

theorem natBelow?_ofNat {n bound : Nat} (h : n < bound) :
    natBelow? bound (ofJson (Json.ofNat n)) = some n := by
  simp [ofJson_ofNat, natBelow?, h]

end Document

/-! ## Stores -/

namespace StoreSettings

/-- The slots of a store, its kind first. -/
def slotsDue : StoreSettings → List (String × Json)
  | memory => [("type", .text "memory")]
  | database url maxConnections =>
    [("type", .text "sqlite"), ("url", .text url), ("max_connections", Json.ofNat maxConnections.toNat)]

/-- The slots of a store that hold their default. -/
def spare : StoreSettings → List String
  | memory => []
  | database _ maxConnections => if maxConnections = defaultConnections then ["max_connections"] else []

/-- The fields write the store. -/
def Writes (s : StoreSettings) (fields : List (String × Json)) : Prop :=
  Fills s.slotsDue s.spare fields

theorem spare_subset (s : StoreSettings) {k : String} (hk : k ∈ s.spare) : k = "max_connections" := by
  cases s with
  | memory => cases hk
  | database url maxConnections =>
    rw [spare] at hk
    split_ifs at hk
    · exact List.mem_singleton.1 hk
    · cases hk

theorem nodup_slotsDue (s : StoreSettings) : (s.slotsDue.map Prod.fst).Nodup := by
  cases s <;> simp [slotsDue]

theorem isWhole_of_mem_slotsDue {s : StoreSettings} {f : String × Json} (hf : f ∈ s.slotsDue) :
    f.2.IsWhole := by
  cases s with
  | memory => simp_all [slotsDue, Json.IsWhole]
  | database url maxConnections =>
    have hmax := Json.isWhole_ofNat maxConnections.toNat_lt
    simp only [slotsDue, List.mem_cons, List.not_mem_nil, or_false] at hf
    rcases hf with rfl | rfl | rfl
    · trivial
    · trivial
    · exact hmax

theorem valueWithin_of_mem_slotsDue {s : StoreSettings} {f : String × Json} (hf : f ∈ s.slotsDue)
    (depth : Nat) : ((Document.ofJson f.2).valueWithin depth).isSome = true := by
  cases s with
  | memory => simp_all [slotsDue, Document.ofJson, Document.valueWithin]
  | database url maxConnections =>
    simp only [slotsDue, List.mem_cons, List.not_mem_nil, or_false] at hf
    rcases hf with rfl | rfl | rfl
    · simp [Document.ofJson, Document.valueWithin]
    · simp [Document.ofJson, Document.valueWithin]
    · simp [Document.ofJson_ofNat, Document.valueWithin]

/-- An object is decoded by its kind and its other fields. -/
theorem decode_kind {fields : List (String × Json)} {kind : String}
    (h : Document.slot? "type" (Document.ofFields fields) =
      some (some (Document.ofJson (.text kind)))) :
    decode (.object (Document.ofFields fields)) = ofSlots kind fun names =>
      Document.slots names false
        (.object (Document.ofFields (fields.filter fun f => some f.1 != some "type"))) := by
  rw [← Document.filter_ofFields (· != some "type")]
  simp only [decode, h, Option.bind_eq_bind, Option.bind_some]
  rfl

/-- Two slots are looked up one after the other. -/
theorem mapM_pair {look : String → Option (Option Document)} {k k' : String}
    {d d' : Option Document} (h : look k = some d) (h' : look k' = some d') :
    [k, k'].mapM look = some [d, d'] := by
  simp [h, h']

theorem ofSlots_database {slots : List String → Option (List (Option Document))} {url : String}
    {max : Document} {maxConnections : UInt32}
    (h : slots ["url", "max_connections"] = some [some (.text (some url)), some max])
    (hmax : max.natBelow? UInt32.size = some maxConnections.toNat) :
    ofSlots "sqlite" slots = some (database url maxConnections) := by
  rw [ofSlots, if_neg (by decide), if_pos rfl, h]
  simp only [hmax, Option.bind_eq_bind, Option.bind_some, Option.pure_def, UInt32.ofNat_toNat,
    Document.text?]

theorem ofSlots_database_default {slots : List String → Option (List (Option Document))}
    {url : String} (h : slots ["url", "max_connections"] = some [some (.text (some url)), none]) :
    ofSlots "sqlite" slots = some (database url defaultConnections) := by
  rw [ofSlots, if_neg (by decide), if_pos rfl, h]
  rfl

namespace Writes

variable {s : StoreSettings} {fields : List (String × Json)}

theorem isWhole (h : s.Writes fields) : (Json.object fields).IsWhole :=
  Json.fieldsWhole fun f hf => isWhole_of_mem_slotsDue (h.subset f hf)

theorem valueWithin (h : s.Writes fields) (depth : Nat) (hdepth : 1 < depth) :
    ((Document.ofJson (.object fields)).valueWithin depth).isSome = true := by
  have hfields := Document.fieldsWithin_ofFields (depth - 1) fun f hf =>
    valueWithin_of_mem_slotsDue (h.subset f hf) (depth - 1)
  rw [Document.ofJson, Document.valueWithin, if_neg (by omega), Option.isSome_map]
  exact hfields

/-- A store is decoded from however it is written. -/
theorem decode (h : s.Writes fields) : decode (Document.ofJson (.object fields)) = some s := by
  have htype (kind : String) (hkind : ("type", .text kind) ∈ s.slotsDue) :=
    h.slot?_eq (nodup_slotsDue s) hkind fun hspare => absurd (spare_subset s hspare) (by decide)
  have hrest := h.filter fun f => some f.1 != some "type"
  cases s with
  | memory =>
    rw [Document.ofJson, decode_kind (htype "memory" List.mem_cons_self), ofSlots, if_pos rfl,
      Document.slots_object [] (by simp)]
    rfl
  | database url maxConnections =>
    have hdue : (slotsDue (database url maxConnections)).filter (fun f => some f.1 != some "type") =
        [("url", .text url), ("max_connections", Json.ofNat maxConnections.toNat)] := by
      simp [slotsDue]
    have hnodup : (([("url", .text url), ("max_connections", Json.ofNat maxConnections.toNat)] :
        List (String × Json)).map Prod.fst).Nodup := by simp
    rw [hdue] at hrest
    have hurl := hrest.slot?_eq (k := "url") (v := .text url) hnodup (by simp)
      fun hspare => absurd (spare_subset _ hspare) (by decide)
    have hmax := hrest.slot? (k := "max_connections") (v := Json.ofNat maxConnections.toNat) hnodup
      (by simp)
    rw [Document.ofJson, decode_kind (htype "sqlite" List.mem_cons_self)]
    rcases hmax with hmax | ⟨hspare, hmax⟩
    · refine ofSlots_database ?_ (Document.natBelow?_ofNat maxConnections.toNat_lt)
      rw [Document.slots_object _ (by simp), mapM_pair hurl hmax, Document.ofJson]
    · obtain rfl : maxConnections = defaultConnections := by
        by_contra hne
        simp [spare, hne] at hspare
      refine ofSlots_database_default ?_
      rw [Document.slots_object _ (by simp), mapM_pair hurl hmax, Document.ofJson]

end Writes

theorem toJson_database (url : String) (maxConnections : UInt32) :
    toJson (database url maxConnections) = .object [("max_connections", Json.ofNat maxConnections.toNat),
      ("type", .text "sqlite"), ("url", .text url)] := by
  have hurl : ¬ ("url" : String) < "type" := by decide
  have hmax : ("max_connections" : String) < "type" := by decide
  simp only [toJson, Json.ofFields, List.foldl_cons, List.foldl_nil, Json.putField, String.reduceEq,
    hurl, hmax, if_true, if_false]

/-- A store as it is written has its slots in the order of their names. -/
theorem writes_toJson (s : StoreSettings) :
    ∃ fields, s.toJson = .object fields ∧ s.Writes fields := by
  have hall : s.Writes s.slotsDue := Fills.all (nodup_slotsDue s)
  cases s with
  | memory => exact ⟨_, rfl, hall⟩
  | database url maxConnections =>
    refine ⟨_, toJson_database url maxConnections, hall.perm ?_⟩
    show ([_, _] ++ [_]).Perm ([_] ++ [_, _])
    exact List.perm_append_comm

end StoreSettings

/-! ## Settings -/

/-- Something is wrong with contents that are of the form of settings. -/
def SettingsError.IsInvalid : SettingsError → Prop
  | unreadable _ | malformed => False
  | blankFilter | blankUrl | noConnections => True

namespace Settings

/-- The slots of settings that hold their default. -/
def spare (s : Settings) : List String :=
  (if s.store = .memory then ["store"] else []) ++ if s.logFilter = "info" then ["log_filter"] else []

/-- The fields write the settings, the store in turn being written in any way. -/
def Writes (s : Settings) (fields : List (String × Json)) : Prop :=
  ∃ store, s.store.Writes store ∧
    Fills [("store", .object store), ("log_filter", .text s.logFilter)] s.spare fields

/-- The filter is not blank, and a database has an address that is not blank and a connection. -/
def IsValid (s : Settings) : Prop :=
  isBlank s.logFilter = false ∧ ∀ url maxConnections, s.store = .database url maxConnections →
    isBlank url = false ∧ 1 ≤ maxConnections.toNat

theorem isValid_iff (s : Settings) : s.IsValid ↔ s.fault? = none := by
  obtain ⟨store, filter⟩ := s
  cases store with
  | memory => simp [IsValid, fault?, StoreSettings.fault?]
  | database url maxConnections =>
    have hpos : 1 ≤ maxConnections.toNat ↔ ¬ maxConnections = 0 := by
      rw [← UInt32.toNat_inj, UInt32.toNat_zero]
      omega
    cases hfilter : isBlank filter <;> cases hurl : isBlank url <;>
      simp [IsValid, fault?, StoreSettings.fault?, hpos, hfilter, hurl]

theorem isInvalid_of_fault? {s : Settings} {e : SettingsError} (h : s.fault? = some e) :
    e.IsInvalid := by
  obtain ⟨store, filter⟩ := s
  cases store <;> simp only [fault?, StoreSettings.fault?] at h <;> split_ifs at h <;> cases h <;> trivial

theorem check_ok_iff {s s' : Settings} : s.check = .ok s' ↔ s = s' ∧ s.IsValid := by
  rw [isValid_iff, check]
  cases hfault : s.fault? <;> simp

theorem slot?_store {s : Settings} {store fields : List (String × Json)} 
    (h : Fills [("store", .object store), ("log_filter", .text s.logFilter)] s.spare fields) :
    Document.slot? "store" (Document.ofFields fields) = some (some (Document.ofJson (.object store))) ∨
      s.store = .memory ∧ Document.slot? "store" (Document.ofFields fields) = some none := by
  refine (h.slot? (by simp) List.mem_cons_self).imp_right (And.imp_left fun hspare => ?_)
  by_contra hne
  simp [spare, hne] at hspare

theorem slot?_logFilter {s : Settings} {store fields : List (String × Json)} 
    (h : Fills [("store", .object store), ("log_filter", .text s.logFilter)] s.spare fields) :
    Document.slot? "log_filter" (Document.ofFields fields) = some (some (.text (some s.logFilter))) ∨
      s.logFilter = "info" ∧ Document.slot? "log_filter" (Document.ofFields fields) = some none := by
  have hslot := h.slot? (k := "log_filter") (v := .text s.logFilter) (by simp) (by simp)
  rw [Document.ofJson] at hslot
  refine hslot.imp_right (And.imp_left fun hspare => ?_)
  by_contra hne
  simp [spare, hne] at hspare

/-- Settings are decoded from however they are written. -/
theorem decode_of_writes {s : Settings} {fields : List (String × Json)} (h : s.Writes fields) :
    decode (Document.ofJson (.object fields)) = some s := by
  obtain ⟨store, hstore, hfields⟩ := h
  have hnames : ∀ f ∈ fields, f.1 ∈ ["store", "log_filter"] := fun f hf => hfields.mem_keys hf
  obtain ⟨v, hvalue⟩ := Option.isSome_iff_exists.1
    (hstore.valueWithin (Document.depthLimit - 1) (by decide))
  have hdecode := hstore.decode
  rw [Document.ofJson, decode, Document.slots_object _ fun _ => hnames]
  -- Each of the two slots is filled or left out.
  rcases slot?_store hfields with hs | ⟨hmemory, hs⟩ <;>
    rcases slot?_logFilter hfields with hf | ⟨hinfo, hf⟩ <;>
      rw [StoreSettings.mapM_pair hs hf]
  · simp [hvalue, hdecode, Document.text?]
  · simp [hvalue, hdecode, ← hinfo]
  · simp [Document.text?, ← hmemory]
  · simp [← hmemory, ← hinfo]

theorem isWhole_of_writes {s : Settings} {fields : List (String × Json)} (h : s.Writes fields) :
    (Json.object fields).IsWhole := by
  obtain ⟨store, hstore, hfields⟩ := h
  refine Json.fieldsWhole fun f hf => ?_
  rcases List.mem_cons.1 (hfields.subset f hf) with rfl | hf
  · exact hstore.isWhole
  · rw [List.mem_singleton.1 hf]
    trivial

/-- **However settings are written, they are read and then checked.** -/
theorem read_of_writes {s : Settings} {fields : List (String × Json)} (h : s.Writes fields) :
    read (Json.object fields).compact = s.check := by
  rw [read, Document.read_compact (isWhole_of_writes h), Option.bind_some, decode_of_writes h]

/-- Settings as they are written have their slots in the order of their names. -/
theorem writes_toJson (s : Settings) : ∃ fields, s.toJson = .object fields ∧ s.Writes fields := by
  obtain ⟨store, hstore, hwrites⟩ := s.store.writes_toJson
  refine ⟨[("log_filter", .text s.logFilter), ("store", .object store)], ?_, store, hwrites,
    (Fills.all (by simp)).perm (.swap _ _ _)⟩
  have hfilter : ("log_filter" : String) < "store" := by decide
  rw [toJson, hstore]
  simp only [Json.ofFields, List.foldl_cons, List.foldl_nil, Json.putField, String.reduceEq, hfilter,
    if_true, if_false]

theorem isValid_of_read {s : Settings} {text : String} (h : read text = .ok s) : s.IsValid := by
  unfold read at h
  split at h
  · obtain ⟨rfl, hvalid⟩ := check_ok_iff.1 h
    exact hvalid
  · cases h

/-- **Settings that are written with their slots in any order, with those that hold their default
left out or not, are read as they are when they are valid, and refused as invalid otherwise; and
settings that are read are valid, and read again from how they are written.** -/
theorem read_exact (s : Settings) :
    (∀ fields, s.Writes fields →
      (s.IsValid → read (Json.object fields).compact = .ok s) ∧
      (¬ s.IsValid → ∃ e, e.IsInvalid ∧ read (Json.object fields).compact = .error e)) ∧
    (∃ fields, s.toJson = .object fields ∧ s.Writes fields) ∧
    ∀ text, read text = .ok s → s.IsValid ∧ read s.toJson.compact = .ok s := by
  have hread : ∀ fields, s.Writes fields → s.IsValid → read (Json.object fields).compact = .ok s := by
    intro fields h hvalid
    rw [read_of_writes h]
    exact check_ok_iff.2 ⟨rfl, hvalid⟩
  refine ⟨fun fields h => ⟨hread fields h, fun hinvalid => ?_⟩, writes_toJson s, fun text h => ?_⟩
  · rw [isValid_iff, ← ne_eq, Option.ne_none_iff_exists'] at hinvalid
    obtain ⟨e, hfault⟩ := hinvalid
    rw [read_of_writes h, check, hfault]
    exact ⟨e, isInvalid_of_fault? hfault, rfl⟩
  · obtain ⟨fields, hfields, hwrites⟩ := writes_toJson s
    rw [hfields]
    exact ⟨isValid_of_read h, hread fields hwrites (isValid_of_read h)⟩

/-- A database whose kind comes last, with the defaults left out. -/
theorem read_short :
    let s : Settings := { store := .database "app.db" 5 }
    let fields := [("store", Json.object [("url", .text "app.db"), ("type", .text "sqlite")])]
    s.Writes fields ∧ s.IsValid ∧ read (Json.object fields).compact = .ok s := by
  intro s fields
  have hstore : s.store.Writes [("url", .text "app.db"), ("type", .text "sqlite")] :=
    ⟨by simp, by simp [s, StoreSettings.slotsDue], by
      simp [s, StoreSettings.slotsDue, StoreSettings.spare, StoreSettings.defaultConnections]⟩
  have hwrites : s.Writes fields :=
    ⟨_, hstore, by simp [fields], by simp [fields], by simp [s, fields, spare]⟩
  have hvalid : s.IsValid := (isValid_iff s).2 (by decide)
  exact ⟨hwrites, hvalid, ((read_exact s).1 fields hwrites).1 hvalid⟩

end Settings

end DurableFlow
