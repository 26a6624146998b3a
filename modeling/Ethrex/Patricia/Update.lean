import Ethrex.Patricia.Tree

/-!
# Updating Patricia trees

Insertion and removal keep trees canonical. The entry that a removal leaves a branch with is a
classical choice over an arbitrary alphabet.
-/

namespace Patricia

open List

variable {α V : Type*} [DecidableEq α]

def lcp : List α → List α → Nat
  | a :: k, b :: l => if a = b then lcp k l + 1 else 0
  | _, _ => 0

theorem lcp_spec (k p : List α) : ∃ c k' p', k = c ++ k' ∧ p = c ++ p' ∧ lcp k p = c.length ∧
    (∀ a, k'.head? = some a → p'.head? ≠ some a) := by
  induction k generalizing p with
  | nil => exact ⟨[], [], p, rfl, rfl, by cases p <;> rfl, by simp⟩
  | cons a k ih =>
    cases p with
    | nil => exact ⟨[], a :: k, [], rfl, rfl, rfl, by simp⟩
    | cons b p =>
      by_cases hab : a = b
      · subst hab
        obtain ⟨c, k', p', rfl, rfl, hlen, hhead⟩ := ih p
        exact ⟨a :: c, k', p', rfl, rfl, by simp [lcp, hlen], hhead⟩
      · refine ⟨[], a :: k, b :: p, rfl, rfl, by simp [lcp, hab], ?_⟩
        simp [Ne.symm hab]

theorem lcp_eq_length_iff (k p : List α) : lcp k p = p.length ↔ p <+: k := by
  obtain ⟨c, k', p', rfl, rfl, hlen, hhead⟩ := lcp_spec k p
  rw [hlen, length_append, prefix_append_right_inj]
  cases p' with
  | nil => simp
  | cons a p' =>
    refine ⟨fun h => by simp at h, ?_⟩
    rintro ⟨r, rfl⟩
    exact absurd rfl (hhead a (by simp))

theorem lcp_comm (k l : List α) : lcp k l = lcp l k := by
  induction k generalizing l with
  | nil => cases l <;> rfl
  | cons a k ih =>
    cases l with
    | nil => rfl
    | cons b l => simp [lcp, ih l, eq_comm]

variable {q l : List α}

theorem length_le_lcp {k : List α} (hk : q <+: k) (hl : q <+: l) : q.length ≤ lcp k l := by
  obtain ⟨k, rfl⟩ := hk
  obtain ⟨l, rfl⟩ := hl
  induction q with
  | nil => simp
  | cons a q ih => simpa [lcp] using ih

theorem isPrefix_of_le_lcp {k : List α} (hq : q <+: k) (hlen : q.length ≤ lcp k l) : q <+: l := by
  obtain ⟨c, k', l', rfl, rfl, hlcp, -⟩ := lcp_spec k l
  rw [hlcp] at hlen
  exact (prefix_of_prefix_length_le hq (prefix_append _ _) hlen).trans
    (prefix_append _ _)

namespace Tree

/-- The tree with `p` in front of every word. -/
def prepend (p : List α) : Tree α V → Tree α V
  | nil => nil
  | leaf q v => leaf (p ++ q) v
  | ext q c => ext (p ++ q) c
  | branch cs v => if p = [] then branch cs v else ext p (branch cs v)

omit [DecidableEq α] in
@[simp] theorem prepend_nil (t : Tree α V) : prepend [] t = t := by
  cases t <;> simp [prepend]

@[simp] theorem lookup_prepend_append (p k : List α) (t : Tree α V) :
    (prepend p t).lookup (p ++ k) = t.lookup k := by
  cases t with
  | nil => simp [prepend]
  | leaf q v => simp [prepend]
  | ext q c => simp [prepend, lookup_ext, prefix_append_right_inj, drop_length_add_append]
  | branch cs v =>
    by_cases hp : p = []
    · simp [prepend, hp]
    · simp [prepend, hp]

theorem lookup_prepend_of_not_isPrefix {p k : List α} (h : ¬p <+: k) (t : Tree α V) :
    (prepend p t).lookup k = none := by
  cases t with
  | nil => simp [prepend]
  | leaf q v =>
    simp only [prepend, lookup_leaf, ite_eq_right_iff, reduceCtorEq, imp_false]
    rintro rfl
    exact h (prefix_append _ _)
  | ext q c =>
    rw [prepend, lookup_ext, if_neg]
    exact fun hq => h ((prefix_append _ _).trans hq)
  | branch cs v =>
    by_cases hp : p = []
    · exact absurd (by simp [hp]) h
    · simp [prepend, hp, lookup_ext, h]

omit [DecidableEq α] in
theorem prepend_eq_nil {p : List α} {t : Tree α V} : prepend p t = nil ↔ t = nil := by
  cases t with
  | branch cs v => by_cases hp : p = [] <;> simp [prepend, hp]
  | _ => simp [prepend]

omit [DecidableEq α] in
theorem Canonical.prepend {t : Tree α V} (h : t.Canonical) (p : List α) :
    (Tree.prepend p t).Canonical := by
  intro hne
  replace h := h fun ht => hne (prepend_eq_nil.2 ht)
  cases t with
  | nil => exact absurd h id
  | leaf q v => exact trivial
  | ext q c => exact ⟨by simp [h.1], h.2.1, h.2.2⟩
  | branch cs v =>
    by_cases hp : p = []
    · simpa [Tree.prepend, hp] using h
    · simpa [Tree.prepend, hp] using ⟨hp, trivial, h⟩

omit [DecidableEq α] in
theorem proper_leaf (p : List α) (v : V) : (leaf p v).Proper := trivial

def single (a : α) (t : Tree α V) : α → Tree α V :=
  Function.update (fun _ => nil) a t

variable {cs : α → Tree α V}

theorem Canonical.update (h : ∀ a, (cs a).Canonical) (a : α) {t : Tree α V} (ht : t.Canonical)
    (b : α) : (Function.update cs a t b).Canonical := by
  by_cases hb : b = a
  · subst hb
    simpa using ht
  · simpa [hb] using h b

theorem Canonical.single {t : Tree α V} (ht : t.Canonical) (a b : α) :
    (Tree.single a t b).Canonical :=
  Canonical.update (fun _ => canonical_nil) a ht b

/-- The branch at which the words `p` and `k` part. -/
def fork (p : List α) (w : V) (k : List α) (v : V) : Tree α V :=
  match p, k with
  | [], [] => leaf [] v
  | [], b :: k => branch (single b (leaf k v)) (some w)
  | a :: p, [] => branch (single a (leaf p w)) (some v)
  | a :: p, b :: k => branch (Function.update (single b (leaf k v)) a (leaf p w)) none

theorem lookup_fork {p k : List α} (w v : V) (h : ∀ a, k.head? = some a → p.head? ≠ some a)
    (l : List α) : (fork p w k v).lookup l =
      if l = k then some v else if l = p then some w else none := by
  match p, k with
  | [], [] => cases l <;> simp [fork]
  | [], b :: k =>
    cases l with
    | nil => simp [fork]
    | cons c l => by_cases hc : c = b <;> simp [fork, single, hc]
  | a :: p, [] =>
    cases l with
    | nil => simp [fork]
    | cons c l => by_cases hc : c = a <;> simp [fork, single, hc]
  | a :: p, b :: k =>
    have hab : a ≠ b := by simpa using h b
    cases l with
    | nil => simp [fork]
    | cons c l =>
      by_cases hca : c = a
      · subst hca
        simp [fork, hab]
      by_cases hcb : c = b
      · subst hcb
        simp [fork, single, hca]
      · simp [fork, single, hca, hcb]

theorem proper_fork {p k : List α} (w v : V)
    (h : ∀ a, k.head? = some a → p.head? ≠ some a) : (fork p w k v).Proper := by
  match p, k with
  | [], [] => exact trivial
  | [], b :: k =>
    refine ⟨fun a ha => Canonical.single ((proper_leaf _ _).canonical) b a ha,
      .inr ⟨by simp, b, by simp [single]⟩⟩
  | a :: p, [] =>
    refine ⟨fun b hb => Canonical.single ((proper_leaf _ _).canonical) a b hb,
      .inr ⟨by simp, a, by simp [single]⟩⟩
  | a :: p, b :: k =>
    have hab : b ≠ a := fun he => h b rfl (by simp [he])
    refine ⟨Canonical.update (fun c => Canonical.single ((proper_leaf _ _).canonical) b c) a
      ((proper_leaf _ _).canonical), .inl ⟨a, b, hab.symm, by simp, by simp [single, hab]⟩⟩

/-- The branch at which the word `k` leaves the extension by `p` to `c`. -/
def forkExt (p : List α) (c : Tree α V) (k : List α) (v : V) : Tree α V :=
  match p, k with
  | [], _ => c
  | a :: p, [] => branch (single a (prepend p c)) (some v)
  | a :: p, b :: k => branch (Function.update (single a (prepend p c)) b (leaf k v)) none

theorem lookup_forkExt {p k : List α} (c : Tree α V) (v : V) (hp : p ≠ [])
    (h : ∀ a, k.head? = some a → p.head? ≠ some a) (l : List α) :
    (forkExt p c k v).lookup l = if l = k then some v else (prepend p c).lookup l := by
  cases p with
  | nil => exact absurd rfl hp
  | cons a p =>
    have hpre : ∀ l : List α, (prepend (a :: p) c).lookup (a :: l) = (prepend p c).lookup l := by
      intro l
      by_cases hl : p <+: l
      · obtain ⟨l, rfl⟩ := hl
        rw [← cons_append, lookup_prepend_append, lookup_prepend_append]
      · rw [lookup_prepend_of_not_isPrefix hl,
          lookup_prepend_of_not_isPrefix (by simpa [cons_prefix_cons] using hl)]
    have hne : ∀ {b : α} (l : List α), b ≠ a → (prepend (a :: p) c).lookup (b :: l) = none :=
      fun l hb => lookup_prepend_of_not_isPrefix
        (by simp [cons_prefix_cons, Ne.symm hb]) c
    have hnil : (prepend (a :: p) c).lookup [] = none :=
      lookup_prepend_of_not_isPrefix (by simp) c
    cases k with
    | nil =>
      cases l with
      | nil => simp [forkExt]
      | cons b l =>
        by_cases hb : b = a
        · subst hb
          simp [forkExt, single, hpre]
        · simp [forkExt, single, hb, hne]
    | cons d k =>
      have had : a ≠ d := by simpa using h d
      cases l with
      | nil => simp [forkExt, hnil]
      | cons b l =>
        by_cases hb : b = d
        · subst hb
          simp [forkExt, hne l had.symm]
        by_cases hba : b = a
        · subst hba
          simp [forkExt, single, hb, hpre]
        · simp [forkExt, single, hb, hba, hne]

theorem proper_forkExt {p k : List α} {c : Tree α V} (v : V) (hp : p ≠ []) (hc : c.Proper)
    (h : ∀ a, k.head? = some a → p.head? ≠ some a) : (forkExt p c k v).Proper := by
  cases p with
  | nil => exact absurd rfl hp
  | cons a p =>
    have hcan := Canonical.single (hc.canonical.prepend p) a
    have hne : prepend p c ≠ nil := fun he => hc.ne_nil (prepend_eq_nil.1 he)
    cases k with
    | nil => exact ⟨hcan, .inr ⟨by simp, a, by simpa [single] using hne⟩⟩
    | cons b k =>
      have hab : a ≠ b := fun he => h b rfl (by simp [he])
      exact ⟨Canonical.update hcan b ((proper_leaf _ _).canonical),
        .inl ⟨a, b, hab, by simpa [single, hab] using hne, by simp⟩⟩

/-- The tree with the word `k` mapped to `v`. -/
def insert : Tree α V → List α → V → Tree α V
  | nil, k, v => leaf k v
  | leaf p w, k, v =>
    if k = p then leaf p v
    else prepend (k.take (lcp k p)) (fork (p.drop (lcp k p)) w (k.drop (lcp k p)) v)
  | ext p c, k, v =>
    if lcp k p = p.length then ext p (c.insert (k.drop (lcp k p)) v)
    else prepend (k.take (lcp k p)) (forkExt (p.drop (lcp k p)) c (k.drop (lcp k p)) v)
  | branch cs _, [], v => branch cs (some v)
  | branch cs w, a :: k, v => branch (Function.update cs a ((cs a).insert k v)) w

theorem lookup_prepend (p k : List α) (t : Tree α V) :
    (prepend p t).lookup k = if p <+: k then t.lookup (k.drop p.length) else none := by
  split
  · rename_i h
    obtain ⟨k, rfl⟩ := h
    simp
  · rename_i h
    exact lookup_prepend_of_not_isPrefix h t

theorem lookup_insert (t : Tree α V) (k : List α) (v : V) (l : List α) :
    (t.insert k v).lookup l = if l = k then some v else t.lookup l := by
  induction t generalizing k l with
  | nil => simp [insert]
  | leaf p w =>
    by_cases hkp : k = p
    · subst hkp
      by_cases hl : l = k <;> simp [insert, hl]
    obtain ⟨c, k', p', rfl, rfl, hlen, hhead⟩ := lcp_spec k p
    simp only [insert, hkp, if_false, hlen, take_left, drop_left]
    by_cases hl : c <+: l
    · obtain ⟨l, rfl⟩ := hl
      simp [lookup_fork w v hhead]
    rw [lookup_prepend_of_not_isPrefix hl]
    have hne : ∀ r, l ≠ c ++ r := by
      rintro r rfl
      exact hl (prefix_append _ _)
    simp [hne]
  | ext p c ih =>
    obtain ⟨d, k', p', rfl, rfl, hlen, hhead⟩ := lcp_spec k p
    by_cases hp' : p' = []
    · subst hp'
      rw [append_nil] at hlen
      simp only [insert, hlen, append_nil, if_true, drop_left, lookup_ext]
      by_cases hl : d <+: l
      · obtain ⟨l, rfl⟩ := hl
        simp [ih]
      have hne : l ≠ d ++ k' := by
        rintro rfl
        exact hl (prefix_append _ _)
      simp [hl, hne]
    · have hlt : d.length ≠ (d ++ p').length := by simpa using hp'
      simp only [insert, hlen, hlt, if_false, take_left, drop_left]
      by_cases hl : d <+: l
      · obtain ⟨l, rfl⟩ := hl
        rw [lookup_prepend_append, lookup_forkExt c v hp' hhead, lookup_ext, lookup_prepend]
        simp [prefix_append_right_inj, drop_length_add_append]
      rw [lookup_prepend_of_not_isPrefix hl, lookup_ext,
        if_neg fun h => hl ((prefix_append _ _).trans h), if_neg]
      rintro rfl
      exact hl (prefix_append _ _)
  | branch cs w ih =>
    cases k with
    | nil => cases l <;> simp [insert]
    | cons a k =>
      cases l with
      | nil => simp [insert]
      | cons b l =>
        by_cases hb : b = a
        · subst hb
          simp [insert, ih]
        · simp [insert, hb]

theorem IsBranch.insert {t : Tree α V} (h : t.IsBranch) (k : List α) (v : V) :
    (t.insert k v).IsBranch := by
  cases t with
  | branch cs w => cases k <;> trivial
  | nil => exact h.elim
  | leaf _ _ => exact h.elim
  | ext _ _ => exact h.elim

theorem TwoEntries.update {w : Option V} (h : TwoEntries cs w) (a : α) {t : Tree α V}
    (ht : t ≠ nil) : TwoEntries (Function.update cs a t) w := by
  have hmono : ∀ b, cs b ≠ nil → Function.update cs a t b ≠ nil := by
    intro b hb
    by_cases hba : b = a
    · subst hba
      simpa using ht
    · simpa [hba] using hb
  rcases h with ⟨b, c, hbc, hb, hc⟩ | ⟨hw, b, hb⟩
  · exact .inl ⟨b, c, hbc, hmono b hb, hmono c hc⟩
  · exact .inr ⟨hw, b, hmono b hb⟩

theorem Canonical.insert {t : Tree α V} (h : t.Canonical) (k : List α) (v : V) :
    (t.insert k v).Proper := by
  induction t generalizing k with
  | nil => exact trivial
  | leaf p w =>
    by_cases hkp : k = p
    · simp only [Tree.insert, hkp, if_true]
      exact trivial
    obtain ⟨c, k', p', rfl, rfl, hlen, hhead⟩ := lcp_spec k p
    simp only [Tree.insert, hkp, if_false, hlen, take_left, drop_left]
    have hf := proper_fork w v hhead
    exact hf.canonical.prepend c fun he => hf.ne_nil (prepend_eq_nil.1 he)
  | ext p c ih =>
    obtain ⟨hp, hb, hc⟩ := h (by simp)
    obtain ⟨d, k', p', rfl, rfl, hlen, hhead⟩ := lcp_spec k p
    by_cases hp' : p' = []
    · subst hp'
      rw [append_nil] at hlen
      simp only [Tree.insert, hlen, append_nil, if_true, drop_left]
      exact ⟨by simpa using hp, hb.insert k' v, ih hc.canonical k'⟩
    · have hlt : d.length ≠ (d ++ p').length := by simpa using hp'
      simp only [Tree.insert, hlen, hlt, if_false, take_left, drop_left]
      have hf := proper_forkExt v hp' hc hhead
      exact hf.canonical.prepend d fun he => hf.ne_nil (prepend_eq_nil.1 he)
  | branch cs w ih =>
    obtain ⟨hcs, htwo⟩ := h (by simp)
    cases k with
    | nil =>
      refine ⟨hcs, .inr ⟨by simp, ?_⟩⟩
      rcases htwo with ⟨a, _, _, ha, _⟩ | ⟨_, a, ha⟩
      · exact ⟨a, ha⟩
      · exact ⟨a, ha⟩
    | cons a k =>
      have hp := ih a (hcs a) k
      exact ⟨Canonical.update hcs a hp.canonical, htwo.update a hp.ne_nil⟩

open Classical in
/-- The canonical tree with the map of a branch, whatever entries the branch has. -/
noncomputable def contract (cs : α → Tree α V) (v : Option V) : Tree α V :=
  if h : v = none ∧ ∃ a, cs a ≠ nil ∧ ∀ b, b ≠ a → cs b = nil then
    prepend [h.2.choose] (cs h.2.choose)
  else if ∀ a, cs a = nil then
    match v with
    | some v => leaf [] v
    | none => nil
  else branch cs v

omit [DecidableEq α] in
theorem contract_single {a : α} (ha : cs a ≠ nil) (hb : ∀ b, b ≠ a → cs b = nil) :
    contract cs none = prepend [a] (cs a) := by
  have h : (none : Option V) = none ∧ ∃ a, cs a ≠ nil ∧ ∀ b, b ≠ a → cs b = nil :=
    ⟨rfl, a, ha, hb⟩
  have hchoose : h.2.choose = a := by
    by_contra hne
    exact h.2.choose_spec.1 (hb _ hne)
  rw [contract, dif_pos h, hchoose]

omit [DecidableEq α] in
theorem contract_value (h : ∀ a, cs a = nil) (v : V) : contract cs (some v) = leaf [] v := by
  rw [contract, dif_neg (by simp), if_pos h]

omit [DecidableEq α] in
theorem contract_empty (h : ∀ a, cs a = nil) : contract cs none = nil := by
  rw [contract, dif_neg, if_pos h]
  rintro ⟨-, a, ha, -⟩
  exact ha (h a)

omit [DecidableEq α] in
theorem contract_branch {v : Option V} (h : TwoEntries cs v) : contract cs v = branch cs v := by
  rw [contract, dif_neg, if_neg]
  · intro hnil
    rcases h with ⟨a, _, _, ha, _⟩ | ⟨_, a, ha⟩
    · exact ha (hnil a)
    · exact ha (hnil a)
  · rintro ⟨hv, c, -, hc⟩
    rcases h with ⟨a, b, hab, ha, hb⟩ | ⟨hv', _⟩
    · by_cases hac : a = c
      · exact hb (hc b (hac ▸ hab.symm))
      · exact ha (hc a hac)
    · exact hv' hv

omit [DecidableEq α] in
/-- The entries of a branch: none, only the value, only one child, or at least two. -/
theorem entries_cases (cs : α → Tree α V) (v : Option V) :
    ((∀ a, cs a = nil) ∧ v = none) ∨ ((∀ a, cs a = nil) ∧ ∃ w, v = some w) ∨
    (v = none ∧ ∃ a, cs a ≠ nil ∧ ∀ b, b ≠ a → cs b = nil) ∨ TwoEntries cs v := by
  by_cases hnil : ∀ a, cs a = nil
  · cases v with
    | none => exact .inl ⟨hnil, rfl⟩
    | some w => exact .inr (.inl ⟨hnil, w, rfl⟩)
  obtain ⟨a, ha⟩ := not_forall.1 hnil
  by_cases hone : ∀ b, b ≠ a → cs b = nil
  · cases v with
    | none => exact .inr (.inr (.inl ⟨rfl, a, ha, hone⟩))
    | some w => exact .inr (.inr (.inr (.inr ⟨by simp, a, ha⟩)))
  · simp only [not_forall] at hone
    obtain ⟨b, hba, hb⟩ := hone
    exact .inr (.inr (.inr (.inl ⟨a, b, Ne.symm hba, ha, hb⟩)))

theorem lookup_contract (cs : α → Tree α V) (v : Option V) (k : List α) :
    (contract cs v).lookup k = (branch cs v).lookup k := by
  rcases entries_cases cs v with ⟨h, rfl⟩ | ⟨h, w, rfl⟩ | ⟨rfl, a, ha, hb⟩ | h
  · rw [contract_empty h]
    cases k <;> simp [h]
  · rw [contract_value h]
    cases k <;> simp [h]
  · rw [contract_single ha hb]
    cases k with
    | nil => exact lookup_prepend_of_not_isPrefix (by simp) _
    | cons b k =>
      by_cases hba : b = a
      · subst hba
        simpa using lookup_prepend_append [b] k (cs b)
      · rw [lookup_prepend_of_not_isPrefix (by simp [cons_prefix_cons, Ne.symm hba])]
        simp [hb b hba]
  · rw [contract_branch h]

omit [DecidableEq α] in
theorem Canonical.contract (h : ∀ a, (cs a).Canonical) (v : Option V) :
    (Tree.contract cs v).Canonical := by
  rcases entries_cases cs v with ⟨hn, rfl⟩ | ⟨hn, w, rfl⟩ | ⟨rfl, a, ha, hb⟩ | htwo
  · rw [contract_empty hn]
    exact canonical_nil
  · rw [contract_value hn]
    exact (proper_leaf _ _).canonical
  · rw [contract_single ha hb]
    exact (h a).prepend [a]
  · rw [contract_branch htwo]
    exact fun _ => ⟨h, htwo⟩

noncomputable def remove : Tree α V → List α → Tree α V
  | nil, _ => nil
  | leaf p w, k => if k = p then nil else leaf p w
  | ext p c, k => if p <+: k then prepend p (c.remove (k.drop p.length)) else ext p c
  | branch cs _, [] => contract cs none
  | branch cs w, a :: k => contract (Function.update cs a ((cs a).remove k)) w

theorem lookup_remove (t : Tree α V) (k l : List α) :
    (t.remove k).lookup l = if l = k then none else t.lookup l := by
  induction t generalizing k l with
  | nil => simp [remove]
  | leaf p w =>
    by_cases hkp : k = p
    · subst hkp
      by_cases hl : l = k <;> simp [remove, hl]
    by_cases hl : l = k
    · subst hl
      simp [remove, hkp]
    · simp [remove, hkp, hl]
  | ext p c ih =>
    by_cases hp : p <+: k
    · obtain ⟨k, rfl⟩ := hp
      simp only [remove, prefix_append, if_true, drop_left]
      by_cases hl : p <+: l
      · obtain ⟨l, rfl⟩ := hl
        simp [ih]
      · rw [lookup_prepend_of_not_isPrefix hl, lookup_ext, if_neg hl]
        simp
    · simp only [remove, hp, if_false]
      by_cases hl : l = k
      · subst hl
        simp [lookup_ext, hp]
      · simp [hl]
  | branch cs w ih =>
    cases k with
    | nil => cases l <;> simp [remove, lookup_contract]
    | cons a k =>
      cases l with
      | nil => simp [remove, lookup_contract]
      | cons b l =>
        by_cases hb : b = a
        · subst hb
          simp [remove, lookup_contract, ih]
        · simp [remove, lookup_contract, hb]

theorem Canonical.remove {t : Tree α V} (h : t.Canonical) (k : List α) :
    (t.remove k).Canonical := by
  induction t generalizing k with
  | nil => exact canonical_nil
  | leaf p w =>
    by_cases hkp : k = p
    · simp only [Tree.remove, hkp, if_true]
      exact canonical_nil
    · simp only [Tree.remove, hkp, if_false]
      exact (proper_leaf _ _).canonical
  | ext p c ih =>
    by_cases hp : p <+: k
    · simp only [Tree.remove, hp, if_true]
      exact (ih (h (by simp)).2.2.canonical _).prepend p
    · simpa only [Tree.remove, hp, if_false] using h
  | branch cs w ih =>
    obtain ⟨hcs, -⟩ := h (by simp)
    cases k with
    | nil => exact Canonical.contract hcs none
    | cons a k => exact Canonical.contract (Canonical.update hcs a (ih a (hcs a) k)) w

end Tree

end Patricia
