import Mathlib.Data.List.Dedup
import Mathlib.Data.List.Perm.Basic

/-! Tables as lists of rows. The physical order is the order of the list and
carries no meaning. Statements that check a constraint row by row stop at the
first violation, and the whole statement then has no effect. -/
namespace KeyedTable

universe u v w
variable {α : Type u} {κ : Type v} {ε : Type w}

/-- A sequence of fallible steps succeeds when both of its parts do. -/
theorem bind_eq_ok_iff {β : Type u} {x : Except ε α} {f : α → Except ε β} {b : β} :
    (x >>= f) = .ok b ↔ ∃ a, x = .ok a ∧ f a = .ok b := by
  cases x <;> simp [bind, Except.bind]

/-- A result that exists does not need its default. -/
theorem eq_ok_getD_of_isSome {x : Except ε α} (h : x.toOption.isSome) (default : α) :
    x = .ok (x.toOption.getD default) := by
  cases x with
  | error e => cases h
  | ok a => rfl

/-- A property of the result of a computation that succeeds. -/
theorem exists_of_map_eq_ok {β : Type u} {x : Except ε α} {f : α → β} {b : β}
    (h : x.map f = .ok b) : ∃ a, x = .ok a ∧ f a = b := by
  cases x with
  | error e => simp [Except.map] at h
  | ok a => exact ⟨a, rfl, by simpa [Except.map] using h⟩

theorem eq_error_of_map_eq_error {β : Type u} {x : Except ε α} {f : α → β} {e : ε}
    (h : x.map f = .error e) : x = .error e := by
  cases x with
  | error e' => simpa [Except.map] using h
  | ok a => simp [Except.map] at h

section Lookup

variable [DecidableEq κ] (key : α → κ)

/-- The row with a given key. -/
def lookup (rows : List α) (k : κ) : Option α :=
  rows.find? fun r => key r = k

variable {key} {rows : List α} {k : κ} {r : α}

theorem key_of_lookup (h : lookup key rows k = some r) : key r = k := by
  simpa using List.find?_some h

theorem mem_of_lookup (h : lookup key rows k = some r) : r ∈ rows :=
  List.mem_of_find?_eq_some h

theorem lookup_eq_none_iff : lookup key rows k = none ↔ ∀ r ∈ rows, key r ≠ k := by
  simp [lookup, List.find?_eq_none]

theorem lookup_isSome_iff : (lookup key rows k).isSome ↔ k ∈ rows.map key := by
  simp [lookup, List.find?_isSome]

/-- With unique keys a row is found under its own key. -/
theorem lookup_eq_some_iff (hKey : (rows.map key).Nodup) :
    lookup key rows k = some r ↔ r ∈ rows ∧ key r = k := by
  constructor
  · exact fun h => ⟨mem_of_lookup h, key_of_lookup h⟩
  · rintro ⟨hr, rfl⟩
    cases hFound : lookup key rows (key r) with
    | none => exact absurd rfl (lookup_eq_none_iff.mp hFound r hr)
    | some s =>
        rw [List.inj_on_of_nodup_map hKey (mem_of_lookup hFound) hr (key_of_lookup hFound)]

/-- Updates that keep the keys commute with lookup. -/
theorem lookup_map (f : α → α) (hKey : ∀ r, key (f r) = key r) :
    lookup key (rows.map f) k = (lookup key rows k).map f := by
  simp only [lookup, List.find?_map, Function.comp_def, hKey]

/-- With unique keys a filter by key finds at most one row. -/
theorem filter_key (hKey : (rows.map key).Nodup) :
    (rows.filter fun r => key r = k) = (lookup key rows k).toList := by
  induction rows with
  | nil => rfl
  | cons first rest ih =>
      obtain ⟨hNew, hRest⟩ := List.nodup_cons.mp hKey
      by_cases hFirst : key first = k
      · have hOther : (rest.filter fun r => key r = k) = [] := by
          simp only [List.filter_eq_nil_iff, decide_eq_true_eq]
          intro r hr hEq
          exact hNew (hFirst.trans hEq.symm ▸ List.mem_map_of_mem hr)
        simp [lookup, hFirst, hOther]
      · rw [List.filter_cons_of_neg (by simpa using hFirst), ih hRest]
        simp [lookup, hFirst]

theorem lookup_filter (hKey : (rows.map key).Nodup) (p : α → Bool) :
    lookup key (rows.filter p) k = (lookup key rows k).filter p := by
  have hFiltered : ((rows.filter p).map key).Nodup :=
    hKey.sublist (List.filter_sublist.map key)
  ext s
  rw [lookup_eq_some_iff hFiltered, List.mem_filter, Option.filter_eq_some_iff,
    lookup_eq_some_iff hKey]
  tauto

end Lookup

section Unique

/-- A unique index over a partial key. Rows without a key, such as those
with a NULL in an indexed column, never conflict. -/
def UniqueOn (key : α → Option κ) (rows : List α) : Prop :=
  (rows.filterMap key).Nodup

instance [DecidableEq κ] (key : α → Option κ) (rows : List α) :
    Decidable (UniqueOn key rows) :=
  inferInstanceAs (Decidable (List.Nodup _))

/-- Another row already holds the new row's key. -/
def conflicts [DecidableEq κ] (key : α → Option κ) (rows : List α) (r : α) : Bool :=
  match key r with
  | none => false
  | some k => k ∈ rows.filterMap key

theorem uniqueOn_append_singleton [DecidableEq κ] (key : α → Option κ) (rows : List α) (r : α) :
    UniqueOn key (rows ++ [r]) ↔ UniqueOn key rows ∧ conflicts key rows r = false := by
  unfold UniqueOn conflicts
  cases hKey : key r with
  | none => simp [hKey]
  | some k =>
      simp only [List.filterMap_append, List.filterMap_cons, hKey, List.filterMap_nil,
        List.nodup_append, List.nodup_cons, List.not_mem_nil, not_false_eq_true,
        List.nodup_nil, and_self, true_and, List.mem_singleton, forall_eq, decide_eq_false_iff_not]
      constructor
      · rintro ⟨hRows, hNew⟩
        exact ⟨hRows, fun hIn => hNew k hIn rfl⟩
      · rintro ⟨hRows, hNew⟩
        exact ⟨hRows, fun a ha hEq => hNew (hEq ▸ ha)⟩

theorem uniqueOn_some (key : α → κ) (rows : List α) :
    UniqueOn (fun r => some (key r)) rows ↔ (rows.map key).Nodup := by
  rw [UniqueOn, ← List.filterMap_eq_map]
  rfl

theorem UniqueOn.sublist {key : α → Option κ} {rows more : List α} (h : UniqueOn key rows)
    (hSub : more.Sublist rows) : UniqueOn key more :=
  List.Nodup.sublist (hSub.filterMap key) h

/-- Rows with the same key are the same row. -/
theorem UniqueOn.eq_of_key {key : α → Option κ} {rows : List α} (h : UniqueOn key rows)
    {r s : α} (hr : r ∈ rows) (hs : s ∈ rows) {k : κ} (hrKey : key r = some k)
    (hsKey : key s = some k) : r = s := by
  induction rows with
  | nil => simp at hr
  | cons a rest ih =>
      have hRest : UniqueOn key rest := h.sublist (List.sublist_cons_self a rest)
      have hHead {t : α} (ht : t ∈ rest) (htKey : key t = some k) : key a ≠ some k := by
        intro haKey
        have hNodup : (k :: rest.filterMap key).Nodup := by
          simpa [UniqueOn, haKey] using h
        exact (List.nodup_cons.mp hNodup).1 (List.mem_filterMap.mpr ⟨t, ht, htKey⟩)
      rcases List.mem_cons.mp hr with hra | hrRest <;> rcases List.mem_cons.mp hs with hsa | hsRest
      · rw [hra, hsa]
      · exact absurd (hra ▸ hrKey) (hHead hsRest hsKey)
      · exact absurd (hsa ▸ hsKey) (hHead hrRest hrKey)
      · exact ih hRest hrRest hsRest

end Unique

section Insert

/-- INSERT of several rows: each row is checked against the table that
already holds the rows before it. -/
def insertAll (check : List α → α → Option ε) : List α → List α → Except ε (List α)
  | rows, [] => .ok rows
  | rows, r :: rest => match check rows r with
      | some e => .error e
      | none => insertAll check (rows ++ [r]) rest

variable {check : List α → α → Option ε}

theorem insertAll_eq_append {rows new out : List α} (h : insertAll check rows new = .ok out) :
    out = rows ++ new := by
  induction new generalizing rows with
  | nil => simpa [insertAll] using h.symm
  | cons r rest ih =>
      cases hCheck : check rows r with
      | some e => simp [insertAll, hCheck] at h
      | none =>
          rw [insertAll, hCheck] at h
          simpa using ih h

/-- The first violation decides the error. -/
theorem insertAll_eq_error {rows new : List α} {e : ε} (h : insertAll check rows new = .error e) :
    ∃ before r after, new = before ++ r :: after ∧ check (rows ++ before) r = some e := by
  induction new generalizing rows with
  | nil => simp [insertAll] at h
  | cons r rest ih =>
      cases hCheck : check rows r with
      | some e' =>
          have hEq : e' = e := by simpa [insertAll, hCheck] using h
          exact ⟨[], r, rest, rfl, by rw [List.append_nil, hCheck, hEq]⟩
      | none =>
          rw [insertAll, hCheck] at h
          obtain ⟨before, s, after, hSplit, hFound⟩ := ih h
          exact ⟨r :: before, s, after, by rw [hSplit]; rfl, by simpa using hFound⟩

/-- A check that refuses conflicts keeps the index unique. -/
theorem UniqueOn.insertAll [DecidableEq κ] {key : α → Option κ} {rows new out : List α}
    (hRows : UniqueOn key rows)
    (hCheck : ∀ rows r, check rows r = none → conflicts key rows r = false)
    (h : KeyedTable.insertAll check rows new = .ok out) : UniqueOn key out := by
  induction new generalizing rows with
  | nil =>
      have hEq : rows = out := by simpa [KeyedTable.insertAll] using h
      exact hEq ▸ hRows
  | cons r rest ih =>
      cases hRow : check rows r with
      | some e => simp [KeyedTable.insertAll, hRow] at h
      | none =>
          rw [KeyedTable.insertAll, hRow] at h
          exact ih ((uniqueOn_append_singleton key rows r).mpr ⟨hRows, hCheck rows r hRow⟩) h

/-- No prefix of a table with a unique index conflicts with the next row. -/
theorem UniqueOn.no_conflict [DecidableEq κ] {key : α → Option κ} {rows after : List α} {r : α}
    (h : UniqueOn key (rows ++ r :: after)) : conflicts key rows r = false := by
  have hPrefix : UniqueOn key (rows ++ [r]) := by
    apply h.sublist
    simp
  exact ((uniqueOn_append_singleton key rows r).mp hPrefix).2

end Insert

section Group

variable [DecidableEq κ]

/-- The values of a GROUP BY expression. -/
def groups (key : α → κ) (rows : List α) : List κ := (rows.map key).dedup

@[simp] theorem mem_groups {key : α → κ} {rows : List α} {k : κ} :
    k ∈ groups key rows ↔ ∃ r ∈ rows, key r = k := by
  simp [groups]

theorem groups_nodup (key : α → κ) (rows : List α) : (groups key rows).Nodup :=
  List.nodup_dedup _

private theorem flatMap_filter_perm (key : α → κ) (rows : List α) {keys : List κ}
    (hKeys : keys.Nodup) :
    (keys.flatMap fun k => rows.filter (key · = k)).Perm (rows.filter (key · ∈ keys)) := by
  induction keys with
  | nil => simp
  | cons k rest ih =>
      obtain ⟨hNew, hRest⟩ := List.nodup_cons.mp hKeys
      have hSelf : (rows.filter (key · ∈ k :: rest)).filter (key · = k) =
          rows.filter (key · = k) := by
        rw [List.filter_filter]
        exact List.filter_congr fun r _ => by simp +contextual
      have hOther : (rows.filter (key · ∈ k :: rest)).filter (fun r => !decide (key r = k)) =
          rows.filter (key · ∈ rest) := by
        rw [List.filter_filter]
        apply List.filter_congr
        intro r _
        by_cases hk : key r = k
        · simp [hk, hNew]
        · simp [hk]
      rw [List.flatMap_cons]
      apply ((ih hRest).append_left _).trans
      rw [← hSelf, ← hOther]
      exact List.filter_append_perm _ _

/-- The groups partition the table. -/
theorem flatMap_groups_perm (key : α → κ) (rows : List α) :
    ((groups key rows).flatMap fun k => rows.filter (key · = k)).Perm rows := by
  apply (flatMap_filter_perm key rows (groups_nodup key rows)).trans
  rw [List.filter_eq_self.mpr]
  intro r hr
  simpa using ⟨r, hr, rfl⟩

/-- A query that only one group contributes to reads that group. -/
theorem flatMap_filterMap_single {β γ : Type*} {keys : List κ} (hKeys : keys.Nodup)
    (values : κ → List β) (g : β → Option γ) (k : κ)
    (hOther : ∀ k', k' ≠ k → (values k').filterMap g = [])
    (hAbsent : k ∉ keys → (values k).filterMap g = []) :
    (keys.flatMap values).filterMap g = (values k).filterMap g := by
  induction keys with
  | nil => simp [hAbsent (by simp)]
  | cons k' rest ih =>
      obtain ⟨hNew, hRest⟩ := List.nodup_cons.mp hKeys
      rw [List.flatMap_cons, List.filterMap_append]
      by_cases hk : k' = k
      · subst hk
        have hNone : (rest.flatMap values).filterMap g = [] := by
          rw [List.filterMap_flatMap, List.flatMap_eq_nil_iff]
          intro k'' hk''
          exact hOther k'' (fun hEq => hNew (hEq ▸ hk''))
        rw [hNone, List.append_nil]
      · rw [hOther k' hk, List.nil_append]
        refine ih hRest fun hNotRest => hAbsent ?_
        simp [hNotRest, Ne.symm hk]

end Group

section Evaluate

variable {β : Type*} {γ : Type*}

/-- The expressions of a SELECT list, evaluated for one row after another. -/
def evaluate (f : α → Except ε β) : List α → Except ε (List β)
  | [] => .ok []
  | r :: rest => do
      let value ← f r
      let values ← evaluate f rest
      .ok (value :: values)

theorem evaluate_eq_ok_iff {f : α → Except ε β} {rows : List α} {out : List β} :
    evaluate f rows = .ok out ↔ List.Forall₂ (fun r value => f r = .ok value) rows out := by
  induction rows generalizing out with
  | nil => simp [evaluate, eq_comm]
  | cons r rest ih =>
      rw [List.forall₂_cons_left_iff]
      cases hf : f r with
      | error e => simp [evaluate, hf, bind, Except.bind]
      | ok value =>
          cases hRest : evaluate f rest with
          | error e =>
              have hNone : ∀ values, ¬ List.Forall₂ (fun r v => f r = .ok v) rest values := by
                intro values hValues
                simp [ih.mpr hValues] at hRest
              simp [evaluate, hf, hRest, bind, Except.bind, hNone]
          | ok values =>
              have hSome := ih.mp hRest
              constructor
              · intro h
                refine ⟨value, values, rfl, hSome, ?_⟩
                simpa [evaluate, hf, hRest, bind, Except.bind] using h.symm
              · rintro ⟨value', values', hValue, hValues, rfl⟩
                have hEq : values = values' := by
                  simpa [hRest] using ih.mpr hValues
                have hEqValue : value = value' := by simpa using hValue
                simp [evaluate, hf, hRest, bind, Except.bind, hEq, hEqValue]

/-- Every value comes from a row. -/
theorem evaluate_mem {f : α → Except ε β} {rows : List α} {out : List β}
    (h : evaluate f rows = .ok out) {value : β} (hValue : value ∈ out) :
    ∃ r ∈ rows, f r = .ok value := by
  have hAll := evaluate_eq_ok_iff.mp h
  clear h
  induction hAll with
  | nil => simp at hValue
  | cons hRow _ ih =>
      rcases List.mem_cons.mp hValue with rfl | hIn
      · exact ⟨_, by simp, hRow⟩
      · obtain ⟨r, hr, hEq⟩ := ih hIn
        exact ⟨r, List.mem_cons_of_mem _ hr, hEq⟩

/-- Every row has its value. -/
theorem evaluate_exists {f : α → Except ε β} {rows : List α} {out : List β}
    (h : evaluate f rows = .ok out) {r : α} (hr : r ∈ rows) : ∃ value ∈ out, f r = .ok value := by
  have hAll := evaluate_eq_ok_iff.mp h
  clear h
  induction hAll with
  | nil => simp at hr
  | cons hRow _ ih =>
      rcases List.mem_cons.mp hr with rfl | hIn
      · exact ⟨_, by simp, hRow⟩
      · obtain ⟨value, hValue, hEq⟩ := ih hIn
        exact ⟨value, List.mem_cons_of_mem _ hValue, hEq⟩

/-- An error is that of a row. -/
theorem evaluate_eq_error {f : α → Except ε β} {rows : List α} {e : ε}
    (h : evaluate f rows = .error e) : ∃ r ∈ rows, f r = .error e := by
  induction rows with
  | nil => cases h
  | cons r rest ih =>
      cases hf : f r with
      | error e' => exact ⟨r, List.mem_cons_self, by simpa [evaluate, hf, bind, Except.bind] using h⟩
      | ok value =>
          cases hRest : evaluate f rest with
          | error e' =>
              obtain ⟨s, hs, hError⟩ := ih (by simpa [evaluate, hf, hRest, bind, Except.bind] using h)
              exact ⟨s, List.mem_cons_of_mem _ hs, hError⟩
          | ok values => simp [evaluate, hf, hRest, bind, Except.bind] at h

/-- What a query reads off the values it could have read off the rows. -/
theorem evaluate_filterMap {f : α → Except ε β} {rows : List α} {out : List β}
    (g : β → Option γ) (g' : α → Option γ) (hg : ∀ r value, f r = .ok value → g value = g' r)
    (h : evaluate f rows = .ok out) : out.filterMap g = rows.filterMap g' := by
  have hAll := evaluate_eq_ok_iff.mp h
  clear h
  induction hAll with
  | nil => rfl
  | cons hRow _ ih => simp [List.filterMap_cons, hg _ _ hRow, ih]

theorem evaluate_map {f : α → Except ε β} {rows : List α} {out : List β}
    (g : β → γ) (g' : α → γ) (hg : ∀ r value, f r = .ok value → g value = g' r)
    (h : evaluate f rows = .ok out) : out.map g = rows.map g' := by
  have hAll := evaluate_eq_ok_iff.mp h
  clear h
  induction hAll with
  | nil => rfl
  | cons hRow _ ih => simp [hg _ _ hRow, ih]

/-- The evaluation succeeds when that of every row does. -/
theorem evaluate_total {f : α → Except ε β} {rows : List α}
    (h : ∀ r ∈ rows, ∃ value, f r = .ok value) : ∃ out, evaluate f rows = .ok out := by
  induction rows with
  | nil => exact ⟨[], rfl⟩
  | cons r rest ih =>
      obtain ⟨value, hValue⟩ := h r (by simp)
      obtain ⟨values, hValues⟩ := ih fun s hs => h s (by simp [hs])
      exact ⟨value :: values, by simp [evaluate, hValue, hValues, bind, Except.bind]⟩

/-- An expression only matters on the rows of the table. -/
theorem evaluate_congr {f g : α → Except ε β} {rows : List α} (h : ∀ r ∈ rows, f r = g r) :
    evaluate f rows = evaluate g rows := by
  induction rows with
  | nil => rfl
  | cons r rest ih => rw [evaluate, evaluate, h r (by simp), ih fun s hs => h s (by simp [hs])]

/-- Rows may be rewritten before the evaluation. -/
theorem evaluate_map_rows (f : β → Except ε γ) (g : α → β) (rows : List α) :
    evaluate f (rows.map g) = evaluate (fun r => f (g r)) rows := by
  induction rows with
  | nil => rfl
  | cons r rest ih => simp only [List.map_cons, evaluate, ih]

/-- An evaluation without errors is a map. -/
theorem evaluate_eq_map {f : α → Except ε β} {g : α → β} {rows : List α}
    (h : ∀ r ∈ rows, f r = .ok (g r)) : evaluate f rows = .ok (rows.map g) := by
  rw [evaluate_eq_ok_iff, List.forall₂_map_right_iff, List.forall₂_same]
  exact h

end Evaluate

section Update

/-- UPDATE of the selected rows. An error in one row aborts the statement. -/
def update (p : α → Bool) (f : α → Except ε α) : List α → Except ε (List α)
  | [] => .ok []
  | r :: rest => do
      let r' ← if p r then f r else .ok r
      let rest' ← update p f rest
      .ok (r' :: rest')

/-- The new value of a row in an update that succeeds. -/
def updated (p : α → Bool) (f : α → Except ε α) (r : α) : α :=
  if p r then (match f r with
    | .ok r' => r'
    | .error _ => r) else r

/-- A successful update is a map over the table, and it evaluated every
selected row without an error. -/
theorem update_eq_ok {p : α → Bool} {f : α → Except ε α} {rows out : List α}
    (h : update p f rows = .ok out) :
    out = rows.map (updated p f) ∧
      ∀ r ∈ rows, p r = true → f r = .ok (updated p f r) := by
  induction rows generalizing out with
  | nil =>
      have hEq : [] = out := by simpa [update] using h
      exact ⟨hEq.symm, by simp⟩
  | cons r rest ih =>
      cases hRest : update p f rest with
      | error e =>
          cases hp : p r <;> cases hf : f r <;>
            simp [update, hp, hf, hRest, bind, Except.bind] at h
      | ok rest' =>
          obtain ⟨hMap, hOk⟩ := ih hRest
          cases hp : p r with
          | false =>
              have hEq : r :: rest' = out := by
                simpa [update, hp, hRest, bind, Except.bind] using h
              refine ⟨by simp [← hEq, hMap, updated, hp], ?_⟩
              intro s hs hSelected
              rcases List.mem_cons.mp hs with rfl | hs
              · simp [hp] at hSelected
              · exact hOk s hs hSelected
          | true =>
              cases hf : f r with
              | error e => simp [update, hp, hf, bind, Except.bind] at h
              | ok r' =>
                  have hEq : r' :: rest' = out := by
                    simpa [update, hp, hf, hRest, bind, Except.bind] using h
                  refine ⟨by simp [← hEq, hMap, updated, hp, hf], ?_⟩
                  intro s hs hSelected
                  rcases List.mem_cons.mp hs with rfl | hs
                  · simp [updated, hp, hf]
                  · exact hOk s hs hSelected

/-- An error is that of a selected row. -/
theorem update_eq_error {p : α → Bool} {f : α → Except ε α} {rows : List α} {e : ε}
    (h : update p f rows = .error e) : ∃ r ∈ rows, p r = true ∧ f r = .error e := by
  induction rows with
  | nil => cases h
  | cons r rest ih =>
      have hTail (hRest : update p f rest = .error e) :
          ∃ s ∈ r :: rest, p s = true ∧ f s = .error e := by
        obtain ⟨s, hs, hError⟩ := ih hRest
        exact ⟨s, List.mem_cons_of_mem _ hs, hError⟩
      cases hp : p r with
      | false => cases hRest : update p f rest <;> simp_all [update, bind, Except.bind]
      | true =>
          cases hf : f r with
          | error e' =>
              exact ⟨r, List.mem_cons_self, hp, by simpa [update, hp, hf, bind, Except.bind] using h⟩
          | ok r' => cases hRest : update p f rest <;> simp_all [update, bind, Except.bind]

/-- A condition only matters on the rows of the table. -/
theorem update_congr {p q : α → Bool} {f : α → Except ε α} {rows : List α}
    (h : ∀ r ∈ rows, p r = q r) : update p f rows = update q f rows := by
  induction rows with
  | nil => rfl
  | cons r rest ih => rw [update, update, h r (by simp), ih fun s hs => h s (by simp [hs])]

/-- An update by key fails or succeeds as it does on the row of the key. -/
theorem update_lookup [DecidableEq κ] {key : α → κ} {f : α → Except ε α} {rows : List α} {k : κ}
    (hKey : (rows.map key).Nodup) (hKeeps : ∀ r r', f r = .ok r' → key r' = key r) :
    ((update (fun r => key r = k) f rows).map fun rows' => lookup key rows' k) =
      (lookup key rows k).elim (.ok none) fun r => (f r).map some := by
  cases hUpdate : update (fun r => decide (key r = k)) f rows with
  | error e =>
      obtain ⟨r, hr, hk, hError⟩ := update_eq_error hUpdate
      rw [(lookup_eq_some_iff hKey).mpr ⟨hr, of_decide_eq_true hk⟩, Option.elim_some, hError]
      rfl
  | ok rows' =>
      obtain ⟨rfl, hOk⟩ := update_eq_ok hUpdate
      have hUpdated (r : α) : key (updated (fun r => decide (key r = k)) f r) = key r := by
        unfold updated
        split
        · split
          · exact hKeeps r _ ‹_›
          · rfl
        · rfl
      rw [Except.map, lookup_map _ hUpdated]
      cases hFound : lookup key rows k with
      | none => rfl
      | some r =>
          rw [Option.elim_some, hOk r (mem_of_lookup hFound) (decide_eq_true (key_of_lookup hFound))]
          rfl

/-- An update of rows that a query sees, as the query sees it. -/
theorem update_filter {p v : α → Bool} {f : α → Except ε α} {rows : List α}
    (hSelected : ∀ r ∈ rows, p r = true → v r = true)
    (hKeeps : ∀ r r', f r = .ok r' → v r' = v r) :
    update p f (rows.filter v) = (update p f rows).map (List.filter v) := by
  induction rows with
  | nil => rfl
  | cons r rest ih =>
      have hRest := ih fun s hs => hSelected s (List.mem_cons_of_mem _ hs)
      have hFirst := hSelected r List.mem_cons_self
      cases hv : v r with
      | false =>
          have hp : p r = false := by simpa [hv] using hFirst
          rw [List.filter_cons_of_neg (by simp [hv]), hRest]
          cases hUpdate : update p f rest <;> simp [update, hp, hUpdate, bind, Except.bind, Except.map, hv]
      | true =>
          rw [List.filter_cons_of_pos hv]
          cases hp : p r with
          | false =>
              cases hUpdate : update p f rest <;>
                simp [update, hp, hRest, hUpdate, bind, Except.bind, Except.map, hv]
          | true =>
              cases hf : f r with
              | error e => simp [update, hp, hf, bind, Except.bind, Except.map]
              | ok r' =>
                  have hv' : v r' = true := (hKeeps r r' hf).trans hv
                  cases hUpdate : update p f rest <;>
                    simp [update, hp, hf, hRest, hUpdate, bind, Except.bind, Except.map, hv']

/-- An update succeeds when every selected row has a new value. -/
theorem update_total {p : α → Bool} {f : α → Except ε α} {rows : List α}
    (h : ∀ r ∈ rows, p r = true → ∃ r', f r = .ok r') : ∃ out, update p f rows = .ok out := by
  induction rows with
  | nil => exact ⟨[], rfl⟩
  | cons r rest ih =>
      obtain ⟨rest', hRest⟩ := ih fun s hs => h s (by simp [hs])
      cases hp : p r with
      | false => exact ⟨r :: rest', by simp [update, hp, hRest, bind, Except.bind]⟩
      | true =>
          obtain ⟨r', hRow⟩ := h r (by simp) hp
          exact ⟨r' :: rest', by simp [update, hp, hRow, hRest, bind, Except.bind]⟩

end Update

section Fold

variable {β : Type*} {γ : Type*} {key : α → κ} {f : β → α → β} {rows : List α}

/-- Rows with distinct keys can be applied in any order if rows with different
keys commute. -/
theorem foldl_eq_of_perm {rows' : List α}
    (hComm : ∀ b r r', key r ≠ key r' → f (f b r) r' = f (f b r') r)
    (hKey : (rows.map key).Nodup) (hPerm : rows.Perm rows') (b : β) :
    rows.foldl f b = rows'.foldl f b := by
  refine hPerm.foldl_eq' (fun r hr r' hr' b => ?_) b
  by_cases hEq : key r = key r'
  · rw [List.inj_on_of_nodup_map hKey hr hr' hEq]
  · exact hComm b r r' hEq

/-- What is read after applying rows with distinct keys is the value of the
row that has one, if the rows with values all have one key. -/
theorem read_foldl {read : β → Option γ} {value : α → Option γ} {k : κ}
    (hRead : ∀ b r, read (f b r) = (value r).or (read b))
    (hValue : ∀ r, (value r).isSome → key r = k) (hKey : (rows.map key).Nodup) (b : β) :
    read (rows.foldl f b) = (rows.findSome? value).or (read b) := by
  induction rows generalizing b with
  | nil => rfl
  | cons r rest ih =>
      obtain ⟨hOnce, hRest⟩ := List.nodup_cons.mp hKey
      rw [List.foldl_cons, ih hRest, hRead, List.findSome?_cons]
      cases hFirst : value r with
      | none => rfl
      | some v =>
          have hNone : rest.findSome? value = none := by
            refine List.findSome?_eq_none_iff.mpr fun r' hr' => ?_
            by_contra hSome
            have hSame : key r' = key r :=
              (hValue r' (Option.isSome_iff_ne_none.mpr hSome)).trans (hValue r (by simp [hFirst])).symm
            exact hOnce (hSame ▸ List.mem_map_of_mem hr')
          simp [hNone]

/-- Without a condition on the keys, the last row that has a value decides. -/
theorem read_foldl_last (read : β → Option γ) (value : α → Option γ)
    (hRead : ∀ b r, read (f b r) = (value r).or (read b)) (b : β) :
    read (rows.foldl f b) = (rows.reverse.findSome? value).or (read b) := by
  induction rows generalizing b with
  | nil => rfl
  | cons r rest ih =>
      rw [List.foldl_cons, ih, hRead, List.reverse_cons, List.findSome?_append, Option.or_assoc]
      congr 1
      simp

/-- Its value is found wherever it stands. -/
theorem findSome?_eq_some_iff_mem {value : α → Option γ} {k : κ}
    (hValue : ∀ r, (value r).isSome → key r = k) (hKey : (rows.map key).Nodup) {v : γ} :
    rows.findSome? value = some v ↔ ∃ r ∈ rows, value r = some v := by
  constructor
  · exact List.exists_of_findSome?_eq_some
  · rintro ⟨r, hr, hv⟩
    have hSome : (rows.findSome? value).isSome :=
      List.findSome?_isSome_iff.mpr ⟨r, hr, by simp [hv]⟩
    obtain ⟨w, hw⟩ := Option.isSome_iff_exists.mp hSome
    obtain ⟨first, hFirst, hFound⟩ := List.exists_of_findSome?_eq_some hw
    have hSame : key first = key r :=
      (hValue first (by simp [hFound])).trans (hValue r (by simp [hv])).symm
    obtain rfl := List.inj_on_of_nodup_map hKey hFirst hr hSame
    rw [hw, ← hFound, hv]

end Fold

end KeyedTable
