import DurableFlow.Assembly
import Mathlib.Data.List.Nodup

/-!
# The order of a startup

An engine is put together all or nothing. The settings are looked at first, then the names of the
entries, then the factories run one after the other, and only then is a store opened, if none is
supplied. At each stage the first entry in the order of registration that is wrong decides, and
nothing that belongs to a later stage is done.

Main statements: a registry that is built holds what the factories of its entries have returned, under
the names of these (`Registry.IsOf`), and `Assembly.builds`.
-/

namespace DurableFlow

/-- The first position at which something is wrong, and what it is. -/
def FirstFault (wrong : Nat → Fault → Prop) (k : Nat) (f : Fault) : Prop :=
  wrong k f ∧ ∀ j < k, ∀ g, ¬ wrong j g

theorem FirstFault.unique {wrong : Nat → Fault → Prop} {k k' : Nat} {f f' : Fault}
    (h : FirstFault wrong k f) (h' : FirstFault wrong k' f')
    (hwrong : ∀ k f g, wrong k f → wrong k g → f = g) : k = k' ∧ f = f' := by
  obtain rfl : k = k' := Nat.le_antisymm (Nat.not_lt.1 fun hlt => h.2 k' hlt f' h'.1)
    (Nat.not_lt.1 fun hlt => h'.2 k hlt f h.1)
  exact ⟨rfl, hwrong _ _ _ h.1 h'.1⟩

namespace Registry

/-- What is wrong with the name at a position: it is blank, or repeats an earlier one. -/
inductive Misnames (names : List String) (k : Nat) : Fault → Prop
  | blank {n} (h : names[k]? = some n) (hblank : isBlank n = true) :
      Misnames names k (.definition .emptyName)
  | repeated {n j} (h : names[k]? = some n) (hblank : isBlank n = false) (hj : j < k)
      (hn : names[j]? = some n) : Misnames names k (.duplicateWorkflow n)

/-- What is wrong with what the factory of the entry at a position returns: an error, or a
definition of another name. -/
inductive Misdefines (services : Services) (entries : List Entry) (k : Nat) : Fault → Prop
  | failed {e w} (h : entries[k]? = some e) (hfactory : e.factory services = .error w) :
      Misdefines services entries k (.definition w)
  | renamed {e d} (h : entries[k]? = some e) (hfactory : e.factory services = .ok d)
      (hname : d.name ≠ e.name) : Misdefines services entries k (.nameMismatch e.name d.name)

/-- The registry holds the definitions of the entries under the names of these, and nothing else. -/
structure IsOf (r : Registry) (services : Services) (entries : List Entry) : Prop where
  found : ∀ e ∈ entries, ∃ d, e.factory services = .ok d ∧ d.name = e.name ∧ r.find? e.name = some d
  other : ∀ n, n ∉ entries.map Entry.name → r.find? n = none
  contains : ∀ n, r.contains n = true ↔ n ∈ entries.map Entry.name
  names : ∀ n, n ∈ r.names ↔ n ∈ entries.map Entry.name
  sorted : r.names.Pairwise (· < ·)
  size : r.size = entries.length

variable {names before : List String} {name : String} {services : Services}
  {entries : List Entry} {e : Entry} {k : Nat} {f : Fault}

/-! ## Names -/

theorem misnames_append_left {rest : List String} (hk : k < before.length) :
    Misnames (before ++ rest) k f ↔ Misnames before k f := by
  have hat : ∀ j ≤ k, (before ++ rest)[j]? = before[j]? :=
    fun j hj => List.getElem?_append_left (Nat.lt_of_le_of_lt hj hk)
  constructor
  · rintro (⟨h, hblank⟩ | ⟨h, hblank, hj, hn⟩)
    · exact .blank (hat k (Nat.le_refl _) ▸ h) hblank
    · exact .repeated (hat k (Nat.le_refl _) ▸ h) hblank hj (hat _ (Nat.le_of_lt hj) ▸ hn)
  · rintro (⟨h, hblank⟩ | ⟨h, hblank, hj, hn⟩)
    · exact .blank (hat k (Nat.le_refl _) ▸ h) hblank
    · exact .repeated (hat k (Nat.le_refl _) ▸ h) hblank hj (hat _ (Nat.le_of_lt hj) ▸ hn)

/-- The first name that is wrong decides. -/
theorem nameFault_cases {seen : List String} (hseen : ∀ n, n ∈ seen ↔ n ∈ before)
    (hbefore : ∀ k f, ¬ Misnames before k f) (rest : List String) :
    nameFault seen rest = none ∧ (∀ k f, ¬ Misnames (before ++ rest) k f) ∨
      ∃ k f, nameFault seen rest = some f ∧ FirstFault (Misnames (before ++ rest)) k f := by
  induction rest generalizing seen before with
  | nil =>
    rw [List.append_nil]
    exact .inl ⟨rfl, hbefore⟩
  | cons name rest ih =>
    have hhere : (before ++ name :: rest)[before.length]? = some name := by simp
    have hless : ∀ j < before.length, ∀ g, ¬ Misnames (before ++ name :: rest) j g :=
      fun j hj g h => hbefore j g ((misnames_append_left hj).1 h)
    cases hblank : isBlank name with
    | true => exact .inr ⟨_, _, by simp [nameFault, hblank], .blank hhere hblank, hless⟩
    | false =>
      by_cases hmem : name ∈ before
      · obtain ⟨j, hj, hget⟩ := List.mem_iff_getElem.1 hmem
        have hn : (before ++ name :: rest)[j]? = some name := by
          rw [List.getElem?_append_left hj, List.getElem?_eq_getElem hj, hget]
        have hfault : nameFault seen (name :: rest) = some (.duplicateWorkflow name) := by
          simp [nameFault, hblank, (hseen name).2 hmem]
        exact .inr ⟨_, _, hfault, .repeated hhere hblank hj hn, hless⟩
      · have hnext : ∀ k f, ¬ Misnames (before ++ [name]) k f := by
          rintro k f h
          have hk : k < (before ++ [name]).length := by
            rcases h with ⟨h, -⟩ | ⟨h, -⟩ <;> exact (List.getElem?_eq_some_iff.1 h).1
          rw [List.length_append, List.length_singleton] at hk
          obtain hk | rfl := Nat.lt_succ_iff_lt_or_eq.1 hk
          · exact hbefore k f ((misnames_append_left hk).1 h)
          · rcases h with ⟨h, hblank'⟩ | ⟨h, -, hj, hn⟩
            · obtain rfl : name = _ := by simpa using h
              rw [hblank] at hblank'
              cases hblank'
            · obtain rfl : name = _ := by simpa using h
              rw [List.getElem?_append_left hj] at hn
              exact hmem (List.mem_of_getElem? hn)
        have hseen' : ∀ n, n ∈ name :: seen ↔ n ∈ before ++ [name] := by simp [hseen, or_comm]
        have hstep := ih hseen' hnext
        rw [List.append_assoc, List.singleton_append] at hstep
        have hfault : nameFault seen (name :: rest) = nameFault (name :: seen) rest := by
          have hnot : name ∉ seen := fun h => hmem ((hseen name).1 h)
          simp [nameFault, hblank, hnot]
        rw [hfault]
        exact hstep

/-- Names of which none is wrong are pairwise distinct. -/
theorem nodup_of_not_misnames (h : ∀ k f, ¬ Misnames names k f) : names.Nodup := by
  refine List.nodup_iff_getElem?_ne_getElem?.2 fun i j hij hj heq => ?_
  have hname : names[j]? = some names[j] := List.getElem?_eq_getElem hj
  -- Of two positions with the same name, the later one would be wrong.
  cases hblank : isBlank names[j] with
  | true => exact h j _ (.blank hname hblank)
  | false => exact h j _ (.repeated hname hblank hij (heq.trans hname))

theorem Misnames.unique {g : Fault} (h : Misnames names k f) (h' : Misnames names k g) : f = g := by
  cases h with
  | blank h hblank =>
    cases h' with
    | blank _ _ => rfl
    | repeated h'' hblank' _ _ =>
      rw [h] at h''
      cases h''
      rw [hblank] at hblank'
      cases hblank'
  | repeated h hblank _ _ =>
    cases h' with
    | blank h'' hblank' =>
      rw [h] at h''
      cases h''
      rw [hblank] at hblank'
      cases hblank'
    | repeated h'' _ _ _ =>
      rw [h] at h''
      cases h''
      rfl

/-! ## Factories -/

theorem misdefines_succ : Misdefines services (e :: entries) (k + 1) f ↔
    Misdefines services entries k f := by
  constructor
  · rintro (⟨h, hfactory⟩ | ⟨h, hfactory, hname⟩)
    · exact .failed h hfactory
    · exact .renamed h hfactory hname
  · rintro (⟨h, hfactory⟩ | ⟨h, hfactory, hname⟩)
    · exact .failed (e := _) h hfactory
    · exact .renamed (e := _) h hfactory hname

theorem Misdefines.unique {g : Fault} (h : Misdefines services entries k f)
    (h' : Misdefines services entries k g) : f = g := by
  cases h with
  | failed h hfactory =>
    cases h' with
    | failed h'' hfactory' =>
      rw [h] at h''
      cases h''
      rw [hfactory] at hfactory'
      cases hfactory'
      rfl
    | renamed h'' hfactory' _ =>
      rw [h] at h''
      cases h''
      rw [hfactory] at hfactory'
      cases hfactory'
  | renamed h hfactory _ =>
    cases h' with
    | failed h'' hfactory' =>
      rw [h] at h''
      cases h''
      rw [hfactory] at hfactory'
      cases hfactory'
    | renamed h'' hfactory' _ =>
      rw [h] at h''
      cases h''
      rw [hfactory] at hfactory'
      cases hfactory'
      rfl

theorem defineEntry_cases (services : Services) (e : Entry) (rest : List Entry) :
    (∃ f, defineEntry services e = .error f ∧ Misdefines services (e :: rest) 0 f) ∨
      ∃ d, defineEntry services e = .ok d ∧ e.factory services = .ok d ∧ d.name = e.name ∧
        ∀ f, ¬ Misdefines services (e :: rest) 0 f := by
  unfold defineEntry
  cases hfactory : e.factory services with
  | error w => exact .inl ⟨_, rfl, .failed rfl hfactory⟩
  | ok d =>
    by_cases hname : d.name = e.name
    · refine .inr ⟨d, if_pos hname, rfl, hname, ?_⟩
      rintro f (⟨h, hfactory'⟩ | ⟨h, hfactory', hname'⟩)
      · cases h
        rw [hfactory] at hfactory'
        cases hfactory'
      · cases h
        rw [hfactory] at hfactory'
        cases hfactory'
        exact hname' hname
    · exact .inl ⟨_, if_neg hname, .renamed rfl hfactory hname⟩

/-- The rows that the factories of entries are put into. -/
structure Fills (services : Services) (entries : List Entry) (t t' : Table String Definition) :
    Prop where
  found : ∀ e ∈ entries, ∃ d, e.factory services = .ok d ∧ d.name = e.name ∧
    t'.get? e.name = some d
  other : ∀ n, n ∉ entries.map Entry.name → t'.get? n = t.get? n
  keys : t'.keys = t.keys ++ entries.map Entry.name

theorem keys_put_of_not_mem {t : Table String Definition} {d : Definition} (h : name ∉ t.keys) :
    (t.put name d).keys = t.keys ++ [name] := by
  obtain ⟨rows, hnodup⟩ := t
  change name ∉ rows.map Prod.fst at h
  change (Table.setRow name d rows).map Prod.fst = rows.map Prod.fst ++ [name]
  clear hnodup
  induction rows with
  | nil => rfl
  | cons r rest ih =>
    rw [List.map_cons, List.mem_cons, not_or] at h
    rw [Table.setRow, if_neg (Ne.symm h.1), List.map_cons, ih h.2]
    rfl

/-- The factories run in order, up to the first that goes wrong. -/
theorem define_cases (services : Services) (entries : List Entry) (t : Table String Definition)
    (hnodup : (t.keys ++ entries.map Entry.name).Nodup) :
    (∃ t', define services entries t = (entries.map Entry.name, .ok t') ∧
        Fills services entries t t' ∧ ∀ k f, ¬ Misdefines services entries k f) ∨
      ∃ k f, define services entries t = ((entries.take (k + 1)).map Entry.name, .error f) ∧
        FirstFault (Misdefines services entries) k f := by
  induction entries generalizing t with
  | nil =>
    refine .inl ⟨t, rfl, ⟨by simp, by simp, by simp⟩, ?_⟩
    rintro k f (⟨h, -⟩ | ⟨h, -⟩) <;> cases h
  | cons e rest ih =>
    obtain ⟨f, hentry, hwrong⟩ | ⟨d, hentry, hfactory, hname, hright⟩ :=
      defineEntry_cases services e rest
    · exact .inr ⟨0, f, by simp [define, hentry], hwrong, by simp⟩
    · rw [List.map_cons] at hnodup
      have hnew : e.name ∉ t.keys := fun h =>
        (List.nodup_append.1 hnodup).2.2 _ h _ List.mem_cons_self rfl
      have hkeys := keys_put_of_not_mem (d := d) hnew
      have hnodup' : ((t.put e.name d).keys ++ rest.map Entry.name).Nodup := by
        rwa [hkeys, List.append_assoc, List.singleton_append]
      have hrest : e.name ∉ rest.map Entry.name :=
        (List.nodup_cons.1 (List.nodup_append.1 hnodup).2.1).1
      obtain ⟨t', hdefine, hfills, hclear⟩ | ⟨k, f, hdefine, hwrong, hleast⟩ := ih _ hnodup'
      · refine .inl ⟨t', by simp [define, hentry, hdefine], ⟨?_, ?_, ?_⟩, ?_⟩
        · intro e' he'
          obtain rfl | he' := List.mem_cons.1 he'
          · exact ⟨d, hfactory, hname, (hfills.other _ hrest).trans (Table.get?_put_self ..)⟩
          · exact hfills.found e' he'
        · intro n hn
          rw [List.map_cons, List.mem_cons, not_or] at hn
          rw [hfills.other n hn.2, Table.get?_put_of_ne _ _ hn.1]
        · rw [hfills.keys, hkeys, List.append_assoc, List.singleton_append, List.map_cons]
        · rintro (_ | k) f h
          · exact hright f h
          · exact hclear k f (misdefines_succ.1 h)
      · refine .inr ⟨k + 1, f, by simp [define, hentry, hdefine], misdefines_succ.2 hwrong, ?_⟩
        rintro (_ | j) hj g h
        · exact hright g h
        · exact hleast j (Nat.lt_of_succ_lt_succ hj) g (misdefines_succ.1 h)

/-! ## Registries -/

/-- What is filled from nothing holds the definitions of the entries. -/
theorem isOf_of_fills {t : Table String Definition} (h : Fills services entries .empty t) :
    IsOf ⟨t⟩ services entries := by
  have hkeys : t.keys = entries.map Entry.name := by simpa [Table.keys, Table.empty] using h.keys
  have hperm : (names ⟨t⟩).Perm (entries.map Entry.name) := hkeys ▸ List.mergeSort_perm ..
  have hother : ∀ n, n ∉ entries.map Entry.name → find? ⟨t⟩ n = none := h.other
  refine ⟨h.found, hother, fun n => ?_, fun n => hperm.mem_iff, ?_, ?_⟩
  · constructor
    · intro hcontains
      by_contra hn
      have hnone : t.get? n = none := hother n hn
      simp [contains, Table.contains, hnone] at hcontains
    · intro hn
      obtain ⟨e, he, rfl⟩ := List.mem_map.1 hn
      obtain ⟨d, -, -, hfound⟩ := h.found e he
      simp [contains, Table.contains, hfound]
  · have hsorted : (names ⟨t⟩).Pairwise (· ≤ ·) := by
      have hpairwise : (names ⟨t⟩).Pairwise fun a b => decide (a ≤ b) = true :=
        List.pairwise_mergeSort
          (fun a b c hab hbc => by
            simp only [decide_eq_true_eq] at *
            exact String.le_trans hab hbc)
          (fun a b => by simpa using String.le_total a b) t.keys
      exact hpairwise.imp fun hab => of_decide_eq_true hab
    have hnodup : (names ⟨t⟩).Nodup := (List.mergeSort_perm ..).nodup_iff.2 t.nodup
    exact hsorted.imp₂ (fun _ _ hle hne => String.not_le.1 fun hge => hne (String.le_antisymm hle hge)) hnodup
  · have hlength := congrArg List.length hkeys
    simpa [Table.keys, size, Table.size] using hlength

end Registry

namespace Assembly

/-- The names of the entries, in the order of registration. -/
def names (a : Assembly) : List String := a.entries.map Entry.name

section

variable {ds : Databases} {url : String} {connections : UInt32}

/-- A database that is connected to is opened. -/
theorem openStore_database {db : Database} (hopen : ds.AreOpen) (hmax : connections ≠ 0)
    (h : ds.connect url connections = some db) :
    openStore ds (.database url connections) =
      ([.opened (.database url connections)], .ok { backing := .database db }) := by
  simp [openStore, Databases.reach, hmax, h, Database.migrate, hopen _ _ _ h, Except.map]

/-- That a database cannot be connected to is told. -/
theorem openStore_unreachable (hmax : connections ≠ 0) (h : ds.connect url connections = none) :
    openStore ds (.database url connections) =
      ([.opened (.database url connections)], .error .database) := by
  simp [openStore, Databases.reach, hmax, h, Except.map]

end

/-- Settings with nothing wrong allow a connection to the database that they name. -/
theorem connections_ne_zero {s : Settings} {url : String} {connections : UInt32}
    (h : s.fault? = none) (hstore : s.store = .database url connections) : connections ≠ 0 := by
  rintro rfl
  unfold Settings.fault? at h
  split at h
  · cases h
  · rw [hstore, StoreSettings.fault?] at h
    split at h <;> simp at h

/-- **An engine is put together all or nothing.** If the settings are wrong that is told, and nothing
is done. Else the first name decides that is blank or a repetition, before any factory runs. Else the
factories run in order, up to the first that fails or defines another name, which decides before a
store is opened. Else the registry holds what the factories have returned, and the store is the one
that is supplied. If none is, the one that the settings name is opened: an empty one in memory, or
the database that their address and their number of connections connect to, if they do. -/
theorem builds (a : Assembly) (hopen : a.databases.AreOpen) :
    (∀ e, a.settings.fault? = some e → a.build = ([], .error (.settings e))) ∧
    (a.settings.fault? = none →
      (∀ k f, FirstFault (Registry.Misnames a.names) k f → a.build = ([], .error (.engine f))) ∧
      ((∀ k f, ¬ Registry.Misnames a.names k f) →
        (∀ k f, FirstFault (Registry.Misdefines a.services a.entries) k f →
          a.build = ((a.names.take (k + 1)).map .ran, .error (.engine f))) ∧
        ((∀ k f, ¬ Registry.Misdefines a.services a.entries k f) →
          ∃ r : Registry, r.IsOf a.services a.entries ∧
            (∀ store, a.supplied = some store → a.build = (a.names.map .ran, .ok (r, store))) ∧
            (a.supplied = none →
              (a.settings.store = .memory →
                a.build = (a.names.map .ran ++ [.opened .memory], .ok (r, {}))) ∧
              ∀ url connections, a.settings.store = .database url connections →
                (∀ db, a.databases.connect url connections = some db →
                  a.build = (a.names.map .ran ++ [.opened (.database url connections)],
                    .ok (r, { backing := .database db }))) ∧
                (a.databases.connect url connections = none →
                  a.build = (a.names.map .ran ++ [.opened (.database url connections)],
                    .error (.store .database))))))) := by
  refine ⟨fun e he => by simp [build, he], fun hsettings => ?_⟩
  have hnil : ∀ n : String, n ∈ [] ↔ n ∈ [] := fun _ => Iff.rfl
  obtain ⟨hnone, hnames⟩ | ⟨k, f, hsome, hfirst⟩ := Registry.nameFault_cases hnil
    (by rintro k f (⟨h, -⟩ | ⟨h, -⟩) <;> cases h) a.names
  · change Registry.nameFault [] (a.entries.map Entry.name) = none at hnone
    refine ⟨fun k f h => absurd h.1 (hnames k f), fun _ => ?_⟩
    have hnodup := Registry.nodup_of_not_misnames hnames
    obtain ⟨t, hdefine, hfills, hclear⟩ | ⟨k, f, hdefine, hfirst⟩ :=
      Registry.define_cases a.services a.entries .empty hnodup
    · have hbuild : Registry.build a.services a.entries = (a.names, .ok ⟨t⟩) := by
        simp only [Registry.build, hnone, hdefine]
        rfl
      refine ⟨fun k f h => absurd h.1 (hclear k f), fun _ => ⟨⟨t⟩, Registry.isOf_of_fills hfills,
        fun store hstore => ?_, fun hstore => ?_⟩⟩
      · simp [build, hsettings, hbuild, hstore]
      · refine ⟨fun hmemory => ?_, fun url connections hdatabase => ⟨fun db hdb => ?_, fun hdb => ?_⟩⟩
        · simp [build, hsettings, hbuild, hstore, hmemory, openStore]
        · have hmax := connections_ne_zero hsettings hdatabase
          simp [build, hsettings, hbuild, hstore, hdatabase, openStore_database hopen hmax hdb]
        · have hmax := connections_ne_zero hsettings hdatabase
          simp [build, hsettings, hbuild, hstore, hdatabase, openStore_unreachable hmax hdb]
    · have hbuild : Registry.build a.services a.entries =
          (a.names.take (k + 1), .error f) := by
        simp only [Registry.build, hnone, hdefine, List.map_take]
        rfl
      refine ⟨fun k' f' h => ?_, fun hclear => absurd hfirst.1 (hclear k f)⟩
      obtain ⟨rfl, rfl⟩ := hfirst.unique h fun _ _ _ => Registry.Misdefines.unique
      simp [build, hsettings, hbuild]
  · change Registry.nameFault [] (a.entries.map Entry.name) = some f at hsome
    refine ⟨fun k' f' h => ?_, fun hclear => absurd hfirst.1 (hclear k f)⟩
    obtain ⟨rfl, rfl⟩ := hfirst.unique h fun _ _ _ => Registry.Misnames.unique
    simp [build, hsettings, Registry.build, hsome]

end Assembly

/-! ## An engine over a database in memory -/

namespace OverDatabase

/-- A database in memory is connected to, and no other one. -/
def databases : Databases where
  connect address _ := if address = "sqlite::memory:" then some {} else none

theorem areOpen : databases.AreOpen := by
  intro address connections db h
  simp only [databases, Option.ite_none_right_eq_some, Option.some.injEq] at h
  rw [← h.2]

def assembly (url : String) : Assembly where
  settings := { store := .database url 5 }
  databases := databases
  entries := [.ofDefinition ⟨"greeting", []⟩]

theorem not_misnames (url : String) :
    ∀ k f, ¬ Registry.Misnames (assembly url).names k f := by
  rintro k f (⟨h, hblank⟩ | ⟨h, -, hj, -⟩)
  · rw [List.mem_singleton.1 (List.mem_of_getElem? h)] at hblank
    exact absurd hblank (by decide)
  · have hk : k < 1 := (List.getElem?_eq_some_iff.1 h).1
    omega

theorem not_misdefines (url : String) :
    ∀ k f, ¬ Registry.Misdefines (assembly url).services (assembly url).entries k f := by
  rintro k f (⟨h, hfactory⟩ | ⟨h, hfactory, hname⟩)
  · rw [List.mem_singleton.1 (List.mem_of_getElem? h)] at hfactory
    cases hfactory
  · rw [List.mem_singleton.1 (List.mem_of_getElem? h)] at hfactory hname
    cases hfactory
    exact hname rfl

/-- The database is opened once the factory has run, and it decides if it cannot be connected to. -/
theorem built :
    (∃ r : Registry, r.IsOf .empty (assembly "sqlite::memory:").entries ∧
      (assembly "sqlite::memory:").build =
        ([.ran "greeting", .opened (.database "sqlite::memory:" 5)],
          .ok (r, { backing := .database {} }))) ∧
    (assembly "sqlite::nowhere:").build =
      ([.ran "greeting", .opened (.database "sqlite::nowhere:" 5)], .error (.store .database)) := by
  constructor
  · obtain ⟨-, hsound⟩ := (assembly "sqlite::memory:").builds areOpen
    obtain ⟨r, hr, -, hnone⟩ := (hsound (by decide)).2 (not_misnames _) |>.2 (not_misdefines _)
    exact ⟨r, hr, ((hnone rfl).2 _ _ rfl).1 {} rfl⟩
  · obtain ⟨-, hsound⟩ := (assembly "sqlite::nowhere:").builds areOpen
    obtain ⟨r, -, -, hnone⟩ := (hsound (by decide)).2 (not_misnames _) |>.2 (not_misdefines _)
    exact ((hnone rfl).2 _ _ rfl).2 rfl

end OverDatabase

end DurableFlow
