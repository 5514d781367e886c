import Mathlib.Data.List.Nodup
import SamlSeal.Proofs.Content

/-!
# Scopes

Lists of declarations as maps from prefixes to namespaces.  All that matters of a scope is what
`Scope.uri?` finds in it, and the lemmas here say what that is after each operation.

* `Scope.Single`: a list does not bind a prefix in two ways.  The list of bindings that reading
  keeps and the scope made of it then agree (`uri?_toScope`),
* `Scope.Proper`: a scope binds every prefix once and to something,
* `Scope.uri?_declare_changes`: the changes from one scope to another lead from the one to the
  other.
-/

namespace SamlSeal.Xml

open Canonical

/-! ### Looking up prefixes -/

namespace Scope

variable {p uri : String} {ds : List Declaration} {s : Scope}

theorem uri?_eq_none_iff : Scope.uri? ds p = none ↔ ∀ d ∈ ds, d.pfx ≠ p := by
  simp [Scope.uri?]

theorem mem_of_uri? (h : Scope.uri? ds p = some uri) : ⟨p, uri⟩ ∈ ds := by
  obtain ⟨d, hd, rfl⟩ := Option.map_eq_some_iff.1 h
  have eq : d.pfx = p := by simpa using List.find?_some hd
  exact eq ▸ List.mem_of_find?_eq_some hd

theorem uri?_append (ds ds' : List Declaration) (p : String) :
    Scope.uri? (ds ++ ds') p = (Scope.uri? ds p).or (Scope.uri? ds' p) := by
  simp only [Scope.uri?, List.find?_append]
  cases ds.find? (·.pfx == p) <;> rfl

/-- Two namespaces are the same if an empty one counts as none. -/
theorem filter_congr {o o' : Option String} (h : o.getD "" = o'.getD "") :
    o.filter (· != "") = o'.filter (· != "") := by
  have eq (o : Option String) : o.filter (· != "") = (some (o.getD "")).filter (· != "") := by
    cases o <;> rfl
  rw [eq o, eq o', h]

/-- All bindings of a prefix in a list are the same, namely the first one. -/
def Single (ds : List Declaration) (p : String) : Prop :=
  ∀ d ∈ ds, d.pfx = p → uri? ds p = some d.uri

theorem single_of_nodup (nodup : (ds.map (·.pfx)).Nodup) (p : String) : Single ds p := by
  induction ds with
  | nil => simp [Single]
  | cons d ds ih =>
    obtain ⟨new, nodup⟩ := List.nodup_cons.1 nodup
    rintro d' hd' rfl
    rcases List.mem_cons.1 hd' with rfl | hd'
    · simp [uri?]
    · have ne : d.pfx ≠ d'.pfx := fun eq => new (List.mem_map.2 ⟨d', hd', eq.symm⟩)
      rw [uri?, List.find?_cons_of_neg (by simpa using ne)]
      exact ih nodup d' hd' rfl

/-- A scope binds every prefix once, and none to the empty namespace. -/
structure Proper (s : Scope) : Prop where
  nodup : (s.map (·.pfx)).Nodup
  nonempty : ∀ d ∈ s, d.uri ≠ ""

theorem Proper.single (h : s.Proper) (p : String) : Single s p := single_of_nodup h.nodup p

theorem Proper.mem_iff (h : s.Proper) {d : Declaration} :
    d ∈ s ↔ s.uri? d.pfx = some d.uri :=
  ⟨fun hd => h.single d.pfx d hd rfl, mem_of_uri?⟩

/-- Whether an empty namespace counts as none does not matter for a proper scope. -/
theorem Proper.filter_uri? (h : s.Proper) (p : String) :
    (s.uri? p).filter (· != "") = s.uri? p := by
  cases bound : s.uri? p with
  | none => rfl
  | some uri =>
    rw [Option.filter_some, if_pos]
    simpa using h.nonempty _ (mem_of_uri? bound)

theorem Proper.nil : Proper [] := ⟨List.nodup_nil, by simp⟩

theorem Proper.unbind (h : s.Proper) (p : String) : (s.unbind p).Proper :=
  ⟨h.nodup.sublist (List.filter_sublist.map _), fun d hd => h.nonempty d (List.mem_filter.1 hd).1⟩

theorem Proper.bind (h : s.Proper) {d : Declaration} (ne : d.uri ≠ "") : (s.bind d).Proper := by
  obtain ⟨nodup, nonempty⟩ := h.unbind d.pfx
  refine ⟨List.nodup_cons.2 ⟨fun mem => ?_, nodup⟩, List.forall_mem_cons.2 ⟨ne, nonempty⟩⟩
  obtain ⟨d', hd', eq⟩ := List.mem_map.1 mem
  exact absurd eq (by simpa using (List.mem_filter.1 hd').2)

theorem Proper.declare (h : s.Proper) (ds : List Declaration) : (s.declare ds).Proper := by
  refine List.foldlRecOn ds _ (motive := Proper) h fun s hs d _ => ?_
  split
  · exact hs.unbind d.pfx
  · next ne => exact hs.bind ne

theorem Proper.toScope (ns : Namespaces) : ns.toScope.Proper :=
  List.foldlRecOn _ _ (motive := Proper) .nil fun _ hs d hd =>
    hs.bind (by simpa using (List.mem_filter.1 hd).2)

/-- The bindings that count are the first ones, if none is in doubt. -/
theorem uri?_toScope {ns : Namespaces} (single : Single ns p) :
    ns.toScope.uri? p = (ns.find? p).filter (· != "") := by
  rw [Namespaces.toScope, Namespaces.find?]
  cases found : Scope.uri? ns p with
  | none =>
    rw [uri?_foldl_bind_of_ne fun d hd => uri?_eq_none_iff.1 found d (List.mem_filter.1 hd).1]
    rfl
  | some u =>
    have same : ∀ d ∈ ns, d.pfx = p → d.uri = u := fun d hd eq =>
      Option.some.inj ((single d hd eq).symm.trans found)
    by_cases empty : u = ""
    · rw [uri?_foldl_bind_of_ne, empty]
      · rfl
      · intro d hd eq
        obtain ⟨hd, nonempty⟩ := List.mem_filter.1 hd
        rw [same d hd eq, empty] at nonempty
        cases nonempty
    · rw [Option.filter_some, if_pos (by simpa using empty)]
      refine uri?_foldl_bind (fun d hd => same d (List.mem_filter.1 hd).1) (.inr ⟨⟨p, u⟩, ?_, rfl⟩)
      exact List.mem_filter.2 ⟨mem_of_uri? found, by simpa using empty⟩

theorem mem_toScope {ns : Namespaces} {d : Declaration} (h : d ∈ ns.toScope) : d ∈ ns := by
  rw [Namespaces.toScope] at h
  refine List.foldlRecOn _ Scope.bind (motive := fun s : Scope => d ∈ s → d ∈ ns)
    (fun h => by cases h) (fun s hs d' hd' h => ?_) h
  rcases List.mem_cons.1 h with rfl | h
  · exact (List.mem_filter.1 hd').1
  · exact hs (List.mem_filter.1 h).1

theorem mem_declare {d : Declaration} (h : d ∈ s.declare ds) : d ∈ s ∨ d ∈ ds := by
  refine List.foldlRecOn ds _ (motive := fun s' : Scope => d ∈ s' → d ∈ s ∨ d ∈ ds) .inl
    (fun s' hs' d' hd' h => ?_) h
  split at h
  · exact hs' (List.mem_filter.1 h).1
  · rcases List.mem_cons.1 h with rfl | h
    · exact .inr hd'
    · exact hs' (List.mem_filter.1 h).1

/-! ### Declarations in order -/

theorem pairwise_sort_le (ds : List Declaration) :
    (Sorting.sort Declaration.le ds).Pairwise (Declaration.le · ·) := by
  refine Sorting.pairwise_sort (fun a b c hab hbc => ?_) (fun a b => ?_) ds
  · simp only [Declaration.le, decide_eq_true_eq] at hab hbc ⊢
    exact String.le_trans hab hbc
  · simpa [Declaration.le] using String.le_total a.pfx b.pfx

/-- Declarations of different prefixes have one order only. -/
theorem sort_eq_of_perm {ds ds' : List Declaration} (nodup : (ds.map (·.pfx)).Nodup)
    (perm : ds.Perm ds') : Sorting.sort Declaration.le ds = Sorting.sort Declaration.le ds' := by
  refine List.Perm.eq_of_pairwise (fun a b ha hb hab hba => ?_) (pairwise_sort_le ds)
    (pairwise_sort_le ds') ((Sorting.sort_perm _ _).trans (perm.trans (Sorting.sort_perm _ _).symm))
  simp only [Declaration.le, decide_eq_true_eq] at hab hba
  have ha := Sorting.mem_sort.1 ha
  have hb := perm.mem_iff.2 (Sorting.mem_sort.1 hb)
  exact List.inj_on_of_nodup_map nodup ha hb (String.le_antisymm hab hba)

/-- A scope in order depends on what is bound in it only. -/
theorem sorted_congr {s' : Scope} (hs : s.Proper) (hs' : s'.Proper)
    (same : ∀ p, s.uri? p = s'.uri? p) : s.sorted = s'.sorted := by
  refine sort_eq_of_perm hs.nodup ?_
  refine (List.perm_ext_iff_of_nodup (.of_map _ hs.nodup) (.of_map _ hs'.nodup)).2 fun d => ?_
  rw [hs.mem_iff, hs'.mem_iff, same]

/-! ### Declaring changes -/

theorem uri?_declare_of_ne (other : ∀ d ∈ ds, d.pfx ≠ p) : (s.declare ds).uri? p = s.uri? p := by
  refine List.foldlRecOn ds _ (motive := fun s' : Scope => s'.uri? p = s.uri? p) rfl
    fun s' hs' d hd => ?_
  have ne := Ne.symm (other d hd)
  split
  · rw [uri?_unbind, if_neg ne, hs']
  · rw [uri?_bind, if_neg ne, hs']

/-- A prefix that is declared is bound as declared, unless to the empty namespace. -/
theorem uri?_declare (same : ∀ d ∈ ds, d.pfx = p → d.uri = uri) (h : ∃ d ∈ ds, d.pfx = p) :
    (s.declare ds).uri? p = (some uri).filter (· != "") := by
  induction ds generalizing s with
  | nil => simp at h
  | cons d ds ih =>
    by_cases later : ∃ d ∈ ds, d.pfx = p
    · exact ih (fun d' hd' => same d' (List.mem_cons_of_mem _ hd')) later
    · have here : d.pfx = p := by
        obtain ⟨d', hd', eq⟩ := h
        rcases List.mem_cons.1 hd' with rfl | hd'
        · exact eq
        · exact absurd ⟨d', hd', eq⟩ later
      have uri := same d List.mem_cons_self here
      rw [declare, List.foldl_cons, ← declare,
        uri?_declare_of_ne fun d' hd' eq => later ⟨d', hd', eq⟩]
      split
      · next empty => rw [uri?_unbind, if_pos here.symm, ← uri, empty]; rfl
      · next ne => rw [uri?_bind, if_pos here.symm, ← uri, Option.filter_some, if_pos (by simpa)]

/-- Declarations change bindings that are the same in the same way. -/
theorem uri?_declare_congr {s' : Scope} (same : ∀ q, s'.uri? q = s.uri? q)
    (ds : List Declaration) (p : String) : (s'.declare ds).uri? p = (s.declare ds).uri? p := by
  induction ds generalizing s s' with
  | nil => exact same p
  | cons d ds ih =>
    refine ih fun q => ?_
    dsimp only
    split
    · rw [uri?_unbind, uri?_unbind, same]
    · rw [uri?_bind, uri?_bind, same]

/-- Declaring all bindings, in whatever order, makes them. -/
theorem uri?_declare_of_perm (proper : s.Proper) (perm : ds.Perm s) (p : String) :
    (declare [] ds).uri? p = s.uri? p := by
  cases bound : s.uri? p with
  | none =>
    refine uri?_declare_of_ne fun d hd => ?_
    exact uri?_eq_none_iff.1 bound d (perm.mem_iff.1 hd)
  | some uri =>
    have declared : ∀ d ∈ ds, d.pfx = p → d.uri = uri := by
      rintro d hd rfl
      exact Option.some.inj ((proper.mem_iff.1 (perm.mem_iff.1 hd)).symm.trans bound)
    rw [uri?_declare declared ⟨_, perm.mem_iff.2 (mem_of_uri? bound), rfl⟩, ← bound,
      proper.filter_uri?]

/-- A prefix stays bound as long as only the default namespace is taken away. -/
theorem uri?_declare_ne_none (ends : ∀ d ∈ ds, d.uri = "" → d.pfx = "") (ne : p ≠ "")
    (bound : s.uri? p ≠ none) : (s.declare ds).uri? p ≠ none := by
  refine List.foldlRecOn ds _ (motive := fun s' : Scope => s'.uri? p ≠ none) bound
    fun s' hs' d hd => ?_
  split
  · next empty => rwa [uri?_unbind, ends d hd empty, if_neg ne]
  · rw [uri?_bind]
    split
    · exact Option.some_ne_none _
    · exact hs'

theorem mem_changes {around inside : Scope} (proper : inside.Proper) {d : Declaration} :
    d ∈ around.changes inside ↔
      inside.uri? d.pfx = some d.uri ∧ around.uri? d.pfx ≠ some d.uri ∨
      d = ⟨"", ""⟩ ∧ (around.uri? "").isSome ∧ inside.uri? "" = none := by
  rw [changes, List.mem_append, List.mem_filter, sorted, Sorting.mem_sort, proper.mem_iff]
  refine or_congr (and_congr_right fun _ => by simp) ?_
  split
  · next h => simpa using fun _ => h
  · next h => simpa using fun _ => h

/-- No binding ends but that of the default namespace. -/
theorem pfx_of_changes {around inside : Scope} (proper : inside.Proper) {d : Declaration}
    (hd : d ∈ around.changes inside) (empty : d.uri = "") : d.pfx = "" := by
  rcases (mem_changes proper).1 hd with ⟨bound, -⟩ | ⟨rfl, -⟩
  · exact absurd empty (proper.nonempty _ (mem_of_uri? bound))
  · rfl

/-- Changes depend on what is bound around and inside only. -/
theorem changes_congr {around around' inside inside' : Scope} (hi : inside.Proper)
    (hi' : inside'.Proper) (outer : ∀ p, around.uri? p = around'.uri? p)
    (inner : ∀ p, inside.uri? p = inside'.uri? p) :
    around.changes inside = around'.changes inside' := by
  simp only [changes, sorted_congr hi hi' inner, outer, inner]

/-- No prefix is changed twice. -/
theorem nodup_changes (around : Scope) {inside : Scope} (proper : inside.Proper) :
    ((around.changes inside).map (·.pfx)).Nodup := by
  have sorted : (inside.sorted.map (·.pfx)).Nodup :=
    ((Sorting.sort_perm _ _).map _).nodup_iff.2 proper.nodup
  rw [changes, List.map_append]
  refine List.Nodup.append (sorted.sublist (List.filter_sublist.map _)) (by split <;> simp) ?_
  -- the default namespace is taken away only if nothing binds it
  intro p hp hq
  split at hq
  · next ended =>
    obtain rfl : p = "" := by simpa using hq
    obtain ⟨d, hd, eq⟩ := List.mem_map.1 hp
    have bound := proper.mem_iff.1 (Sorting.mem_sort.1 (List.mem_filter.1 hd).1)
    rw [eq] at bound
    simp [bound] at ended
  · cases hq

/-- Declaring the changes turns the bindings around an element into those inside it.  A prefix that
is no longer bound has to be the empty one, as no other one can be taken away. -/
theorem uri?_declare_changes {around inside : Scope} (proper : inside.Proper)
    (same : s.uri? p = around.uri? p)
    (ends : inside.uri? p = none → p = "" ∨ around.uri? p = none) :
    (s.declare (around.changes inside)).uri? p = inside.uri? p := by
  cases bound : inside.uri? p with
  | some u =>
    have only : ∀ d ∈ around.changes inside, d.pfx = p → d.uri = u ∧ around.uri? p ≠ some u := by
      rintro d hd rfl
      rcases (mem_changes proper).1 hd with ⟨inside', ne⟩ | ⟨rfl, -, none⟩
      · obtain rfl := Option.some.inj (inside'.symm.trans bound)
        exact ⟨rfl, ne⟩
      · cases none.symm.trans bound
    by_cases known : around.uri? p = some u
    · rw [uri?_declare_of_ne fun d hd eq => (only d hd eq).2 known, same, known]
    · rw [uri?_declare (fun d hd eq => (only d hd eq).1)
        ⟨⟨p, u⟩, (mem_changes proper).2 (.inl ⟨bound, known⟩), rfl⟩, Option.filter_some, if_pos]
      simpa using proper.nonempty _ (mem_of_uri? bound)
  | none =>
    have only : ∀ d ∈ around.changes inside, d.pfx = p → d.uri = "" := by
      rintro d hd rfl
      rcases (mem_changes proper).1 hd with ⟨inside', -⟩ | ⟨rfl, -, -⟩
      · cases inside'.symm.trans bound
      · rfl
    by_cases declared : ∃ d ∈ around.changes inside, d.pfx = p
    · rw [uri?_declare only declared]
      rfl
    · rw [uri?_declare_of_ne fun d hd eq => declared ⟨d, hd, eq⟩, same]
      rcases ends bound with rfl | none
      · -- the default namespace would have been taken away
        by_contra some
        have isSome := Option.ne_none_iff_isSome.1 some
        exact declared ⟨⟨"", ""⟩, (mem_changes proper).2 (.inr ⟨rfl, isSome, bound⟩), rfl⟩
      · exact none

/-- If a namespace is bound to some prefix, a prefix is found for it. -/
theorem pfxOf?_of_uri? {s : Scope} (proper : s.Proper) {p uri : String} (ne : p ≠ "")
    (bound : s.uri? p = some uri) :
    ∃ q, s.pfxOf? uri = some q ∧ q ≠ "" ∧ s.uri? q = some uri := by
  have mem : ⟨p, uri⟩ ∈ s.sorted := Sorting.mem_sort.2 (mem_of_uri? bound)
  cases found : s.sorted.find? fun d => d.pfx != "" && d.uri == uri with
  | none => exact absurd (List.find?_eq_none.1 found _ mem) (by simpa using ne)
  | some d =>
    obtain ⟨hne, rfl⟩ : d.pfx ≠ "" ∧ d.uri = uri := by simpa using List.find?_some found
    refine ⟨d.pfx, by rw [pfxOf?, found]; rfl, hne, ?_⟩
    exact proper.mem_iff.1 (Sorting.mem_sort.1 (List.mem_of_find?_eq_some found))

end Scope

/-! ### Bindings inside an element -/

namespace Namespaces

/-- The bindings around an element stay if the element does not make them anew. -/
theorem find?_extend (around own : Namespaces) (p : String) :
    (extend around own).find? p = (own.find? p).or (around.find? p) := by
  have grown : ∀ ns : Namespaces, find? (around.foldl
      (fun ns d => if ns.any (·.pfx == d.pfx) then ns else ns ++ [d]) ns) p =
        (ns.find? p).or (around.find? p) := by
    induction around with
    | nil => simp [find?, Scope.uri?]
    | cons d around ih =>
      intro ns
      have first : find? (d :: around) p = (find? [d] p).or (find? around p) :=
        Scope.uri?_append [d] around p
      rw [List.foldl_cons, ih, first]
      split
      · next known =>
        by_cases here : d.pfx = p
        · obtain ⟨d', hd', eq⟩ : ∃ d' ∈ ns, d'.pfx = d.pfx := by simpa using known
          cases found : ns.find? p with
          | none => exact absurd (eq.trans here) (Scope.uri?_eq_none_iff.1 found d' hd')
          | some uri => rfl
        · have none : find? [d] p = none := Scope.uri?_eq_none_iff.2 (by simpa using here)
          rw [none, Option.none_or]
      · rw [find?, Scope.uri?_append, Option.or_assoc]
        rfl
  unfold extend
  split
  · next empty =>
    rw [List.isEmpty_iff.1 empty]
    rfl
  · exact grown own

/-- A binding inside an element is made by the element, or it is one around it that the element does
not make anew. -/
theorem mem_extend {around own : Namespaces} {d : Declaration} (h : d ∈ extend around own) :
    d ∈ own ∨ d ∈ around ∧ own.find? d.pfx = none := by
  have grown : ∀ ns : Namespaces, (∀ d ∈ own, d ∈ ns) → d ∈ around.foldl
      (fun ns d => if ns.any (·.pfx == d.pfx) then ns else ns ++ [d]) ns →
        d ∈ ns ∨ d ∈ around ∧ own.find? d.pfx = none := by
    clear h
    induction around with
    | nil => exact fun ns _ h => .inl h
    | cons d₀ around ih =>
      intro ns sub h
      rw [List.foldl_cons] at h
      split at h
      · next known =>
        rcases ih ns sub h with h | ⟨h, none⟩
        · exact .inl h
        · exact .inr ⟨List.mem_cons_of_mem _ h, none⟩
      · next new =>
        rcases ih _ (fun d hd => List.mem_append_left _ (sub d hd)) h with h | ⟨h, none⟩
        · rcases List.mem_append.1 h with h | h
          · exact .inl h
          · obtain rfl := List.mem_singleton.1 h
            refine .inr ⟨List.mem_cons_self, Scope.uri?_eq_none_iff.2 fun d' hd' eq => new ?_⟩
            exact List.any_eq_true.2 ⟨d', sub d' hd', by simpa using eq⟩
        · exact .inr ⟨List.mem_cons_of_mem _ h, none⟩
  unfold extend at h
  split at h
  · next empty =>
    rw [List.isEmpty_iff.1 empty]
    exact .inr ⟨h, rfl⟩
  · exact grown own (fun _ => id) h

theorem single_extend {around own : Namespaces} {p : String} (ha : Scope.Single around p)
    (ho : Scope.Single own p) : Scope.Single (extend around own) p := by
  rintro d hd rfl
  have found := find?_extend around own d.pfx
  rw [find?] at found
  rcases mem_extend hd with hd | ⟨hd, none⟩
  · rw [found, find?, ho d hd rfl]
    rfl
  · rw [found, none, find?, ha d hd rfl]
    rfl

/-- The scope inside an element is the one around it with the declarations of the element. -/
theorem uri?_toScope_extend {around own : Namespaces} {p : String} (ha : Scope.Single around p)
    (ho : Scope.Single own p) :
    (extend around own).toScope.uri? p = (around.toScope.declare own).uri? p := by
  rw [Scope.uri?_toScope (single_extend ha ho), find?_extend]
  cases found : own.find? p with
  | none =>
    rw [Scope.uri?_declare_of_ne (Scope.uri?_eq_none_iff.1 found), Scope.uri?_toScope ha]
    rfl
  | some uri =>
    rw [Scope.uri?_declare (fun d hd eq => Option.some.inj ((ho d hd eq).symm.trans found))
      ⟨⟨p, uri⟩, Scope.mem_of_uri? found, rfl⟩]
    rfl

end Namespaces

/-- Nothing but what prefixes are bound to matters for the names of an element. -/
theorem Element.Consistent.congr {e : Element} {s s' : Scope} (h : e.Consistent s)
    (same : ∀ p, s'.uri? p = s.uri? p) : e.Consistent s' where
  unprefixed := by simpa only [same] using h.unprefixed
  prefixed := by simpa only [same] using h.prefixed
  attributes := by simpa only [same] using h.attributes

/-- Attributes may get other values, and new ones without a namespace may come in. -/
theorem Element.Consistent.keeps {e e' : Element} {s : Scope} (h : e.Consistent s)
    (name : e'.name = e.name)
    (attributes : ∀ a ∈ e'.attributes, a.name.uri = none ∨ ∃ b ∈ e.attributes, a.name = b.name) :
    e'.Consistent s := by
  have pfx : elementPfx e' = elementPfx e := by rw [elementPfx, name, elementPfx]
  obtain ⟨unprefixed, prefixed, names⟩ := h
  refine ⟨by rw [pfx, name]; exact unprefixed, by rw [pfx, name]; exact prefixed, fun a ha => ?_⟩
  rcases attributes a ha with none | ⟨b, hb, eq⟩
  · exact .inl none
  · rw [eq]
    exact names b hb

namespace Document

variable {d : Document}

theorem proper_scope (linked : d.Linked) (id : NodeId) :
    (d.scopeAround id).Proper ∧ (d.scopeAt id).Proper :=
  scope_induction linked .nil (fun _ e _ _ proper => proper.declare e.declarations) id

end Document

end SamlSeal.Xml
