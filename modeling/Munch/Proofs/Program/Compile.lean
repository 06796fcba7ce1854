/-
The actions that build programs follow the layouts. An action builds a layout if the fragment it adds
has that layout in every program that comes of it, once the holes of the fragment lead to one place
(`Builds`); there is one lemma for each way of putting fragments together. An action fails only as it
is said to, and that of a tree only if the tree is not well-formed (`ofTree_builds`).
-/
import Munch.Proofs.Program.Adding
import Munch.Proofs.Program.Layout
import Munch.Proofs.Program.Turns

namespace Munch.AssemblyM

variable {a b c : Assembly} {start n : Nat} {holes out : List Hole} {E : Prop} {P : Layout}
  {body : AssemblyM Fragment} {greedy : Bool}

/-- Every program that comes of the assembly has the property, once the holes lead to one place. -/
def Yields (b : Assembly) (holes : List Hole) (P : Array Inst → Goto → Prop) : Prop :=
  ∀ insts x, Grows b.insts insts → (∀ h ∈ holes, slotAt insts h = some x) → P insts x

/-- The action adds a fragment with the layout behind all that was there, or `E` holds. -/
def Builds (E : Prop) (body : AssemblyM Fragment) (P : Layout) : Prop :=
  ∀ a, Ensures body a
    (fun f b => f.entry = a.insts.size ∧ Adds a.insts.size a b ∧ Open a.insts.size b f.holes ∧
      Yields b f.holes fun insts x => P insts a.insts.size b.insts.size x)
    fun _ _ => E

theorem Builds.imp {E' : Prop} (h : Builds E body P) (hE : E → E') : Builds E' body P :=
  fun a => (h a).imp (fun _ _ hf => hf) fun _ _ => hE

/-! ## Single instructions -/

/-- An instruction whose goto is known. -/
theorem inst_of_slot {inst : Goto → Inst} {insts insts' : Array Inst} {x : Goto}
    (hslot : ∀ g, (inst g).slot? .next = some g)
    (hr : ∀ i, (inst .hole).Refines i → ∃ g, i = inst g) (hg : Grows insts insts')
    (hi : insts[n]? = some (inst .hole)) (hx : slotAt insts' ⟨n, .next⟩ = some x) :
    insts'[n]? = some (inst x) := by
  obtain ⟨i, hi', hri⟩ := hg n _ hi
  obtain ⟨g, rfl⟩ := hr i hri
  simp only [slotAt, hi', Option.bind_some, hslot, Option.some.injEq] at hx
  exact hx ▸ hi'

theorem leaf_builds {inst : Goto → Inst} (hslot : ∀ g, (inst g).slot? .next = some g)
    (hr : ∀ i, (inst .hole).Refines i → ∃ g, i = inst g) :
    Builds E (leaf (inst .hole)) (.leaf inst) := by
  intro a
  refine push_ensures.bind fun n b hb => ?_
  obtain ⟨rfl, hb⟩ := hb
  refine ensures_pure ⟨rfl, .push hb, .push hb (by simp) (by simp [hslot]), fun insts x hg hx => ?_⟩
  exact ⟨inst_of_slot hslot hr hg (by simp [hb]) (hx _ (by simp)), by simp [hb]⟩

theorem symbol_builds (ranges : List Interval) : Builds E (symbol ranges) (.symbol ranges) := by
  have hany (rs : List Interval) : Builds E (leaf (.oneOf rs .hole)) (.leaf (.oneOf rs)) :=
    leaf_builds (fun _ => rfl) fun i hi => ⟨_, hi.choose_spec.1⟩
  match ranges with
  | [] => exact hany []
  | [r] =>
    simp only [symbol, Layout.symbol]
    split
    · exact leaf_builds (fun _ => rfl) fun i hi => ⟨_, hi.choose_spec.1⟩
    · exact leaf_builds (fun _ => rfl) fun i hi => ⟨_, hi.choose_spec.1⟩
  | r :: r' :: rs => exact hany (r :: r' :: rs)

/-! ## Rows -/

/-- The entry of a row of which some parts lie at a position or behind it, unless these are none. -/
def entryAt (entry : Option Nat) (none : Prop) [Decidable none] (i : Nat) : Option Nat :=
  if none then entry else some (entry.getD i)

/-- Code behind pending holes: they lead to it, or to where it leads if there is none. -/
def Resumes (P : Layout) (none : Prop) [Decidable none] (a b : Assembly)
    (pending holes : List Hole) : Prop :=
  Yields b holes fun insts x => ∃ y, (∀ h ∈ pending, slotAt insts h = some y) ∧
    P insts a.insts.size b.insts.size x ∧ y = if none then x else a.insts.size

theorem entryAt_some {none : Prop} [Decidable none] (k i : Nat) :
    entryAt (some k) none i = some k := by
  rw [entryAt, Option.getD_some, ite_self]

theorem sequence_resumes {entry : Option Nat} {parts : List (AssemblyM Fragment)} {Ps : List Layout}
    (h : List.Forall₂ (Builds E) parts Ps) (hs : start ≤ a.insts.size) (ho : Open start a holes) :
    Ensures (sequence entry holes parts) a
      (fun out b => out.1 = entryAt entry (Ps = []) a.insts.size ∧ (Ps = [] → b = a) ∧
        Adds start a b ∧ Open start b out.2 ∧ Resumes (.row Ps) (Ps = []) a b holes out.2)
      fun _ _ => E := by
  induction h generalizing a start entry holes with
  | nil =>
    refine ensures_pure ⟨(if_pos rfl).symm, fun _ => rfl, .refl hs, ho, fun insts x _ hx => ?_⟩
    exact ⟨x, hx, rfl, (if_pos rfl).symm⟩
  | @cons part P parts Ps hpart h ih =>
    refine ho.linkHere_ensures.bind_sure fun _ a₁ hl => ?_
    refine (hpart a₁).bind fun f b hf => ?_
    obtain ⟨hentry, hadds, hopen, hyields⟩ := hf
    refine (ih hadds.size_le hopen).imp (fun out c hc => ?_) fun _ _ => id
    obtain ⟨hfirst, -, hadds', hopen', hres⟩ := hc
    have hle : start ≤ a₁.insts.size := hl.size ▸ hs
    rw [hentry, hl.size, entryAt_some] at hfirst
    refine ⟨hfirst, nofun, (hl.adds ho hs).trans ((hadds.trans hadds').mono hle), hopen'.mono hle, ?_⟩
    intro insts x hg hx
    obtain ⟨y, hy, hrow, hxy⟩ := hres insts x hg hx
    have hP := hyields insts y (hadds'.grows.trans hg) hy
    have hgrows := (hadds.grows.trans hadds'.grows).trans hg
    refine ⟨a.insts.size, hl.leads hgrows, ?_, by simp⟩
    rw [hl.size] at hP
    cases h with
    | nil =>
      replace hrow : b.insts.size = c.insts.size := hrow
      rw [if_pos rfl] at hxy
      rwa [hrow, hxy] at hP
    | cons =>
      rw [if_neg (by simp)] at hxy
      exact ⟨b.insts.size, hxy ▸ hP, hrow⟩

theorem enteredAt_ensures {missing : Error} {entry : Option Nat} {k : Nat}
    {Q : Fragment → Assembly → Prop} (hentry : entry = some k) (h : Q ⟨k, holes⟩ a) :
    Ensures (enteredAt missing entry holes) a Q fun _ _ => E := by
  rw [hentry]
  exact ensures_pure h

theorem concat_builds {parts : List (AssemblyM Fragment)} {Ps : List Layout}
    (h : List.Forall₂ (Builds E) parts Ps) (hE : parts = [] → E) :
    Builds E (concat parts) (.row Ps) := by
  intro a
  cases h with
  | nil => exact hE rfl
  | cons hpart h =>
    refine (sequence_resumes (.cons hpart h) (Nat.le_refl _) .nil).bind fun out b hb => ?_
    obtain ⟨hentry, -, hadds, hopen, hres⟩ := hb
    refine enteredAt_ensures hentry ⟨rfl, hadds, hopen, fun insts x hg hx => ?_⟩
    obtain ⟨y, -, hrow, -⟩ := hres insts x hg hx
    exact hrow

/-! ## Forks -/

/-- A split whose gotos are known. -/
theorem fork_of_slots {insts insts' : Array Inst} {u v : Goto} (hg : Grows insts insts')
    (hi : insts[n]? = some (.split .hole .hole))
    (hu : slotAt insts' ⟨n, enter greedy⟩ = some u)
    (hv : slotAt insts' ⟨n, leave greedy⟩ = some v) : insts'[n]? = some (.fork greedy u v) := by
  obtain ⟨inst, hi', first, second, rfl, -⟩ := hg n _ hi
  cases greedy with
  | true | false =>
    simp only [slotAt, hi', enter, leave, if_true, Bool.false_eq_true, if_false, Option.bind_some,
      Inst.slot?, Option.some.injEq] at hu hv
    rw [hi', hu, hv, Inst.fork]
    simp

theorem enter_ne_leave (greedy : Bool) : enter greedy ≠ leave greedy := by
  cases greedy <;> simp [enter, leave]

theorem split_open (greedy : Bool) (hb : b.insts = a.insts.push (.split .hole .hole)) :
    Open a.insts.size b [⟨a.insts.size, enter greedy⟩, ⟨a.insts.size, leave greedy⟩] := by
  refine .push hb (by simp [enter_ne_leave]) fun hole hh => ?_
  simp only [List.mem_cons, List.not_mem_nil, or_false] at hh
  rcases hh with rfl | rfl <;> cases greedy <;> exact ⟨rfl, rfl⟩

/-- The split lies in front of the body, and the hole that passes the body by is open. -/
theorem optionalBody_ensures (h : Builds E body P) (greedy : Bool) (a : Assembly) :
    Ensures (optionalBody body greedy) a
      (fun r b => r.1 = a.insts.size ∧ r.2.2 = ⟨a.insts.size, leave greedy⟩ ∧
        Adds a.insts.size a b ∧ a.insts.size < b.insts.size ∧ Open a.insts.size b [r.2.2] ∧
        Open (a.insts.size + 1) b r.2.1 ∧
        ∀ insts x y, Grows b.insts insts → slotAt insts r.2.2 = some x →
          (∀ hole ∈ r.2.1, slotAt insts hole = some y) →
          insts[a.insts.size]? = some (.fork greedy ↑(a.insts.size + 1) x) ∧
            P insts (a.insts.size + 1) b.insts.size y)
      fun _ _ => E := by
  refine push_ensures.bind fun n a₁ ha₁ => ?_
  obtain ⟨rfl, ha₁⟩ := ha₁
  have hsize : a₁.insts.size = a.insts.size + 1 := by simp [ha₁]
  refine (h a₁).bind fun f b₁ hf => ?_
  obtain ⟨hentry, hadds, hopen, hyields⟩ := hf
  rw [hsize] at hentry hopen hyields
  -- both gotos of the split stay open while the body is added
  have hsplit := (split_open greedy ha₁).keep hadds
  have henter := hsplit.head
  have hle : a.insts.size < b₁.insts.size := henter.lt_size (List.mem_singleton_self _)
  refine (henter.link_ensures f.entry).bind_sure fun _ b hl => ?_
  have hadds' : Adds a.insts.size a b :=
    ((Adds.push ha₁).append hadds).trans (hl.adds henter (Nat.le_of_lt hle))
  refine ensures_pure ⟨rfl, rfl, hadds', hl.size ▸ hle, hl.isOpen hsplit.tail ?_,
    hl.isOpen hopen ?_, fun insts x y hg hx hy => ⟨?_, ?_⟩⟩
  · simp [(enter_ne_leave greedy).symm]
  · intro hole hh hmem
    obtain rfl := List.mem_singleton.1 hmem
    exact Nat.lt_irrefl _ (hopen.inside _ hh)
  · have hentered := hl.leads hg ⟨a.insts.size, enter greedy⟩ (by simp)
    rw [hentry] at hentered
    exact fork_of_slots ((hadds.grows.trans hl.grows).trans hg) (by simp [ha₁]) hentered hx
  · rw [hl.size]
    exact hyields insts y (hl.grows.trans hg) hy

theorem optional_builds (h : Builds E body P) :
    Builds E (optional body greedy) (.optional P greedy) := by
  intro a
  refine (optionalBody_ensures h greedy a).bind fun r b hr => ?_
  obtain ⟨split, inner, leaving⟩ := r
  obtain ⟨rfl, rfl, hadds, -, hleave, hinner, hyields⟩ := hr
  refine ensures_pure ⟨rfl, hadds, ?_, fun insts x hg hx => ?_⟩
  · have happend := hleave.append hinner (by simp) (Nat.le_succ _)
    exact happend.subset (by simp [or_comm]) ((List.perm_append_comm.nodup_iff).1 happend.nodup)
  · refine hyields insts x x hg (hx _ (by simp)) fun hole hh => hx hole (by simp [hh])

theorem star_eq (body : AssemblyM Fragment) (greedy : Bool) :
    star body greedy = do
      let (split, inner, leaving) ← optionalBody body greedy
      link split inner
      return ⟨split, [leaving]⟩ := by
  simp [star, optionalBody]

theorem star_builds (h : Builds E body P) : Builds E (star body greedy) (.star P greedy) := by
  intro a
  rw [star_eq]
  refine (optionalBody_ensures h greedy a).bind fun r b hr => ?_
  obtain ⟨split, inner, leaving⟩ := r
  obtain ⟨rfl, rfl, hadds, hlt, hleave, hinner, hyields⟩ := hr
  refine (hinner.link_ensures a.insts.size).bind_sure fun _ c hl => ?_
  refine ensures_pure ⟨rfl, hadds.trans ?_, hl.isOpen hleave ?_, fun insts x hg hx => ?_⟩
  · exact (hl.adds hinner hlt).mono (Nat.le_succ _)
  · intro hole hh hmem
    obtain rfl := List.mem_singleton.1 hh
    exact Nat.lt_irrefl _ (hinner.inside _ hmem)
  · rw [hl.size]
    exact hyields insts x a.insts.size (hl.grows.trans hg) (hx _ (by simp)) (hl.leads hg)

theorem plus_builds (h : Builds E body P) : Builds E (plus body greedy) (.plus P greedy) := by
  intro a
  refine (h a).bind fun f b hf => ?_
  obtain ⟨hentry, hadds, hopen, hyields⟩ := hf
  refine hopen.linkHere_ensures.bind_sure fun _ b₁ hl => ?_
  refine push_ensures.bind fun n b₂ hb₂ => ?_
  obtain ⟨rfl, hb₂⟩ := hb₂
  have hsplit := split_open greedy hb₂
  have henter := hsplit.head
  refine (henter.link_ensures f.entry).bind_sure fun _ c hc => ?_
  have hb : Adds a.insts.size a b₁ := hadds.trans (hl.adds hopen hadds.size_le)
  have hpush : Adds b₁.insts.size b₁ c := (Adds.push hb₂).trans (hc.adds henter (by simp [hb₂]))
  have hle : a.insts.size ≤ b₁.insts.size := hb.size_le
  refine ensures_pure ⟨hentry, hb.append hpush, ?_, fun insts x hg hx => ?_⟩
  · refine (hc.isOpen hsplit.tail ?_).mono hle
    simp [(enter_ne_leave greedy).symm]
  · have hg₁ := hpush.grows.trans hg
    have hentered := hc.leads hg ⟨b₁.insts.size, enter greedy⟩ (by simp)
    have hsize : c.insts.size = b.insts.size + 1 := by simp [hc.size, hb₂, hl.size]
    rw [hentry] at hentered
    rw [hsize, ← hl.size]
    refine ⟨b₁.insts.size, hl.size ▸ hyields insts _ (hl.grows.trans hg₁) (hl.leads hg₁), ?_, rfl⟩
    exact fork_of_slots (hc.grows.trans hg) (by simp [hb₂]) hentered (hx _ (by simp))

/-! ## Choices -/

theorem choice_cons_cons (part next : AssemblyM Fragment) (parts : List (AssemblyM Fragment)) :
    choice (part :: next :: parts) = do
      let (_, inner, leaving) ← optionalBody part true
      linkHere [leaving]
      return inner ++ (← choice (next :: parts)) := by
  simp [choice, optionalBody, enter, leave]

theorem choice_ensures {parts : List (AssemblyM Fragment)} {Ps : List Layout}
    (h : List.Forall₂ (Builds E) parts Ps) (hE : parts = [] → E) (a : Assembly) :
    Ensures (choice parts) a
      (fun out b => Adds a.insts.size a b ∧ Open a.insts.size b out ∧
        Yields b out fun insts x => Layout.choice Ps insts a.insts.size b.insts.size x)
      fun _ _ => E := by
  induction h generalizing a with
  | nil => exact ensures_throw (hE rfl)
  | @cons part P parts Ps hpart h ih =>
    cases h with
    | nil =>
      refine (hpart a).bind fun f b hf => ?_
      exact ensures_pure hf.2
    | @cons next Q parts Ps hQ h =>
      rw [choice_cons_cons]
      refine (optionalBody_ensures hpart true a).bind fun r b hr => ?_
      obtain ⟨split, inner, leaving⟩ := r
      obtain ⟨rfl, rfl, hadds, hlt, hleave, hinner, hyields⟩ := hr
      refine hleave.linkHere_ensures.bind_sure fun _ b₁ hl => ?_
      refine (ih (by simp) b₁).bind fun out c hc => ?_
      obtain ⟨hadds', hout, hrest⟩ := hc
      have hle : a.insts.size + 1 ≤ b₁.insts.size := hl.size ▸ hlt
      have hinner₁ : Open (a.insts.size + 1) b₁ inner := by
        refine hl.isOpen hinner fun hole hh hmem => ?_
        obtain rfl := List.mem_singleton.1 hmem
        exact Nat.lt_irrefl _ (hinner.inside _ hh)
      have happend := (hinner₁.keep hadds').append hout (fun _ hx => hinner₁.lt_size hx) hle
      refine ensures_pure ⟨?_, happend.mono (Nat.le_succ _), fun insts x hg hx => ?_⟩
      · exact (hadds.trans (hl.adds hleave hadds.size_le)).append hadds'
      · have hg₁ := hadds'.grows.trans hg
        have hleads := hl.leads hg₁ _ (List.mem_singleton_self _)
        obtain ⟨hfork, hP⟩ := hyields insts _ x (hl.grows.trans hg₁) hleads
          fun hole hh => hx hole (by simp [hh])
        have hQ := hrest insts x hg fun hole hh => hx hole (by simp [hh])
        rw [hl.size] at hQ
        exact ⟨b.insts.size, hfork, hP, hQ⟩

theorem alt_builds {parts : List (AssemblyM Fragment)} {Ps : List Layout}
    (h : List.Forall₂ (Builds E) parts Ps) (hE : parts = [] → E) :
    Builds E (alt parts) (.choice Ps) := by
  intro a
  refine ensures_get_bind ((choice_ensures h hE a).bind fun out b hb => ?_)
  exact ensures_pure ⟨rfl, hb⟩

/-! ## Repetitions -/

theorem optionals_resumes {entry : Option Nat} (h : Builds E body P) (count : Nat)
    (hs : start ≤ a.insts.size) (ho : Open start a holes) :
    Ensures (optionals body greedy entry holes count) a
      (fun r b => r.1 = entryAt entry (count = 0) a.insts.size ∧ Adds start a b ∧
        Open start b (r.2.1 ++ r.2.2) ∧
        Resumes (.optionals P greedy count) (count = 0) a b holes (r.2.1 ++ r.2.2))
      fun _ _ => E := by
  induction count generalizing a start entry holes with
  | zero =>
    refine ensures_pure ⟨(if_pos rfl).symm, .refl hs, ho, fun insts x _ hx => ⟨x, hx, rfl, ?_⟩⟩
    rw [if_pos rfl]
  | succ count ih =>
    refine ho.linkHere_ensures.bind_sure fun _ a₁ hl => ?_
    refine (optionalBody_ensures h greedy a₁).bind fun r b hr => ?_
    obtain ⟨split, inner, leaving⟩ := r
    obtain ⟨rfl, rfl, hadds, hlt, hleave, hinner, hyields⟩ := hr
    refine (ih hlt hinner).bind fun r c hc => ?_
    obtain ⟨first, others, last⟩ := r
    obtain ⟨hfirst, hadds', hout, hres⟩ := hc
    have hle : start ≤ a₁.insts.size := hl.size ▸ hs
    have hleave' := hleave.keep_of_lt hadds' (by simp)
    rw [hl.size, entryAt_some] at hfirst
    refine ensures_pure ⟨hfirst, ?_, (hleave'.append hout (by simp) (Nat.le_succ _)).mono hle, ?_⟩
    · have hbody := hadds.trans (hadds'.mono (Nat.le_succ _))
      exact (hl.adds ho hs).trans (hbody.mono hle)
    · intro insts x hg hx
      obtain ⟨y, hy, hmore, hxy⟩ := hres insts x hg
        fun hole hh => hx hole (List.mem_cons_of_mem _ hh)
      obtain ⟨hfork, hP⟩ := hyields insts x y (hadds'.grows.trans hg) (hx _ (by simp)) hy
      have hgrows := (hadds.grows.trans hadds'.grows).trans hg
      rw [hl.size] at hfork hP
      refine ⟨a.insts.size, hl.leads hgrows, ?_, by simp⟩
      cases count with
      | zero =>
        replace hmore : b.insts.size = c.insts.size := hmore
        rw [if_pos rfl] at hxy
        rw [hmore, hxy] at hP
        exact ⟨hfork, hP⟩
      | succ count =>
        rw [if_neg (by simp)] at hxy
        exact ⟨b.insts.size, hfork, hxy ▸ hP, hmore⟩

theorem forall₂_copies (h : Builds E body P) (count : Nat) :
    List.Forall₂ (Builds E) (List.replicate count body) (List.replicate count P) := by
  induction count with
  | zero => exact .nil
  | succ count ih => exact .cons h ih

theorem sequence_then_builds {parts : List (AssemblyM Fragment)} {Ps : List Layout}
    {next : AssemblyM Fragment} {Q : Layout} (h : List.Forall₂ (Builds E) parts Ps) (hne : Ps ≠ [])
    (hQ : Builds E next Q) :
    Builds E (do
      let (entry, holes) ← sequence none [] parts
      linkHere holes
      let fragment ← next
      return ⟨entry.getD fragment.entry, fragment.holes⟩) (.andThen (.row Ps) Q) := by
  intro a
  refine (sequence_resumes h (Nat.le_refl _) .nil).bind fun out b hb => ?_
  obtain ⟨hfirst, -, hadds, hopen, hres⟩ := hb
  rw [entryAt, if_neg hne] at hfirst
  refine hopen.linkHere_ensures.bind_sure fun _ b₁ hl => ?_
  refine (hQ b₁).bind fun f c hf => ?_
  obtain ⟨-, hadds', hopen', hyields⟩ := hf
  have hb₁ := hadds.trans (hl.adds hopen hadds.size_le)
  refine ensures_pure ⟨?_, hb₁.append hadds', hopen'.mono hb₁.size_le, fun insts x hg hx => ?_⟩
  · rw [hfirst, Option.getD_some, Option.getD_none]
  have hg₁ := hadds'.grows.trans hg
  obtain ⟨y, -, hrow, -⟩ := hres insts _ (hl.grows.trans hg₁) (hl.leads hg₁)
  exact ⟨b.insts.size, hrow, hl.size ▸ hyields insts x hg hx⟩

theorem sequence_optionals_builds {parts : List (AssemblyM Fragment)} {Ps : List Layout}
    (h : List.Forall₂ (Builds E) parts Ps) (hP : Builds E body P) (count : Nat)
    (hne : Ps = [] → count ≠ 0) :
    Builds E (do
      let (entry, holes) ← sequence none [] parts
      let (entry, leaving, last) ← optionals body greedy entry holes count
      enteredAt .emptyRepeat entry (leaving ++ last))
      (if count = 0 then .row Ps else .andThen (.row Ps) (.optionals P greedy count)) := by
  intro a
  refine (sequence_resumes h (Nat.le_refl _) .nil).bind fun out b hb => ?_
  obtain ⟨hfirst, hnone, hadds, hopen, hres⟩ := hb
  refine (optionals_resumes hP count hadds.size_le hopen).bind fun r c hr => ?_
  obtain ⟨first, leaving, last⟩ := r
  obtain ⟨hentry, hadds', hopen', hres'⟩ := hr
  -- without parts it is the first of the optional bodies that is entered
  have hstart : first = some a.insts.size := by
    rw [hfirst] at hentry
    by_cases hPs : Ps = []
    · rwa [hnone hPs, entryAt, if_neg (hne hPs), entryAt, if_pos hPs] at hentry
    · rwa [entryAt, entryAt, if_neg hPs, Option.getD_some, ite_self] at hentry
  refine enteredAt_ensures hstart ⟨rfl, hadds.trans hadds', hopen', fun insts x hg hx => ?_⟩
  obtain ⟨y, hy, hmore, hxy⟩ := hres' insts x hg hx
  obtain ⟨-, -, hrow, -⟩ := hres insts y (hadds'.grows.trans hg) hy
  split
  · next hzero =>
    subst hzero
    replace hmore : b.insts.size = c.insts.size := hmore
    rw [if_pos rfl] at hxy
    rwa [hmore, hxy] at hrow
  · next hne =>
    rw [if_neg hne] at hxy
    exact ⟨b.insts.size, hxy ▸ hrow, hmore⟩

theorem builds_guard {p : Prop} [Decidable p] {e : Error} {rest : AssemblyM Fragment}
    (hp : p → E) (h : ¬ p → Builds E rest P) :
    Builds E (do
      if p then throw e
      rest) P := by
  intro a
  split
  · next hyes => exact hp hyes
  · next hno => exact h hno a

theorem repeated_builds (h : Builds E body P) {min : Int} {max : Option Int}
    (hE : (min < 0 ∨ ∃ m ∈ max, m < min) → E) :
    Builds E (repeated body min max greedy) (.repeated P min max greedy) := by
  cases max with
  | none =>
    simp only [repeated, Layout.repeated]
    refine builds_guard (fun hneg => hE (.inl hneg)) fun _ => ?_
    split
    · exact star_builds h
    split
    · exact plus_builds h
    · have hne : List.replicate (min - 1).toNat P ≠ [] := by
        rw [Ne, List.replicate_eq_nil_iff]
        omega
      exact sequence_then_builds (forall₂_copies h _) hne (plus_builds h)
  | some max =>
    simp only [repeated, Layout.repeated]
    refine builds_guard (fun hneg => hE (.inl hneg)) fun _ => ?_
    refine builds_guard (fun hlt => hE (.inr ⟨max, rfl, hlt⟩)) fun hle => ?_
    split
    · exact leaf_builds (fun _ => rfl) fun i hi => ⟨_, hi.choose_spec.1⟩
    split
    · exact optional_builds h
    · have hcount : ((max - min).toNat = 0) = (min = max) := propext (by omega)
      have hcopies := forall₂_copies h min.toNat
      have hne : List.replicate min.toNat P = [] → (max - min).toNat ≠ 0 := by
        rw [List.replicate_eq_nil_iff]
        omega
      simpa only [hcount] using sequence_optionals_builds hcopies h (max - min).toNat hne

theorem capture_builds (h : Builds E body P) : Builds E (capture body) (.capture P) := by
  intro a
  refine ensures_get_bind (ensures_modify_bind (push_ensures.bind fun n a₁ ha₁ => ?_))
  obtain ⟨rfl, ha₁⟩ := ha₁
  replace ha₁ : a₁.insts = a.insts.push (.save a.nextSlot .hole) := ha₁
  refine (h a₁).bind fun f b hf => ?_
  obtain ⟨hentry, hadds, hopen, hyields⟩ := hf
  have hsize : a₁.insts.size = a.insts.size + 1 := by simp [ha₁]
  rw [hsize] at hentry hopen hyields
  have hstart : Open a.insts.size b [⟨a.insts.size, .next⟩] :=
    Open.keep (.push ha₁ (by simp) (by simp [Inst.slot?])) hadds
  have hle : a.insts.size < b.insts.size := hstart.lt_size (List.mem_singleton_self _)
  refine (hstart.link_ensures f.entry).bind_sure fun _ b₁ hl => ?_
  have hopen₁ : Open (a.insts.size + 1) b₁ f.holes := by
    refine hl.isOpen hopen fun hole hh hmem => ?_
    obtain rfl := List.mem_singleton.1 hmem
    exact Nat.lt_irrefl _ (hopen.inside _ hh)
  refine hopen₁.linkHere_ensures.bind_sure fun _ b₂ hl₁ => ?_
  refine push_ensures.bind fun m c hc => ?_
  obtain ⟨rfl, hc⟩ := hc
  have hadds₂ : Adds a.insts.size a b₂ :=
    (((Adds.push ha₁).append hadds).trans (hl.adds hstart (Nat.le_of_lt hle))).trans
      ((hl₁.adds hopen₁ (hl.size ▸ hle)).mono (Nat.le_succ _))
  have hpush : Adds b₂.insts.size b₂ c := .push hc
  refine ensures_pure ⟨rfl, hadds₂.append hpush, ?_, fun insts x hg hx => ?_⟩
  · exact (Open.push hc (by simp) (by simp [Inst.slot?])).mono hadds₂.size_le
  have hg₂ := hpush.grows.trans hg
  have hg₁ := hl₁.grows.trans hg₂
  have hentered := hl.leads hg₁ _ (List.mem_singleton_self _)
  have hsize₂ : b₂.insts.size = b.insts.size := hl₁.size.trans hl.size
  refine ⟨a.nextSlot, b.insts.size, ?_, ?_, ?_, by simp [hc, hsize₂]⟩
  · rw [← hentry]
    refine inst_of_slot (fun _ => rfl) (fun i hi => ⟨_, hi.choose_spec.1⟩)
      ((hadds.grows.trans hl.grows).trans hg₁) (by simp [ha₁]) hentered
  · exact hyields insts _ (hl.grows.trans hg₁) (hl.size ▸ hl₁.leads hg₂)
  · rw [← hsize₂]
    exact inst_of_slot (fun _ => rfl) (fun i hi => ⟨_, hi.choose_spec.1⟩) hg (by simp [hc])
      (hx _ (by simp))

/-! ## Trees -/

theorem ofTrees_eq_nil (ts : List Tree) : ofTrees ts = [] ↔ ts = [] := by
  cases ts <;> simp [ofTrees]

mutual

/-- The action of a tree adds the layout of the tree, unless the tree is not well-formed. -/
theorem ofTree_builds : (t : Tree) → Builds (¬ t.WellFormed) (ofTree t) t.layout
  | .epsilon | .look _ => leaf_builds (fun _ => rfl) fun i hi => ⟨_, hi.choose_spec.1⟩
  | .symbol _ => symbol_builds _
  | .concat items => by
    refine concat_builds ((ofTrees_builds items).imp fun _ _ h => h.imp fun hbad hc => ?_) ?_
    · intro hnil hc
      cases hc with
      | concat hne _ => exact hne ((ofTrees_eq_nil items).1 hnil)
    · cases hc with
      | concat _ hall => exact hbad hall
  | .alt items => by
    refine alt_builds ((ofTrees_builds items).imp fun _ _ h => h.imp fun hbad hc => ?_) ?_
    · intro hnil hc
      cases hc with
      | alt hne _ => exact hne ((ofTrees_eq_nil items).1 hnil)
    · cases hc with
      | alt _ hall => exact hbad hall
  | .repeated body min max greedy => by
    refine repeated_builds ((ofTree_builds body).imp fun hbad hc => ?_) fun hbounds hc => ?_
    · cases hc with
      | repeated hbody _ _ => exact hbad hbody
    · cases hc with
      | repeated _ hmin hmax =>
        rcases hbounds with hneg | ⟨m, hm, hlt⟩
        · omega
        · have := hmax m hm
          omega
  | .group body true _ => by
    refine capture_builds ((ofTree_builds body).imp fun hbad hc => ?_)
    cases hc with
    | group hbody => exact hbad hbody
  | .group body false _ => by
    refine (ofTree_builds body).imp fun hbad hc => ?_
    cases hc with
    | group hbody => exact hbad hbody
  | .bare => fun a => ensures_throw fun hc => nomatch hc

theorem ofTrees_builds : (ts : List Tree) →
    List.Forall₂ (Builds (¬ ∀ t ∈ ts, t.WellFormed)) (ofTrees ts) (Tree.layouts ts)
  | [] => .nil
  | t :: ts => by
    refine .cons ((ofTree_builds t).imp fun hbad hall => hbad (hall t (by simp))) ?_
    exact (ofTrees_builds ts).imp fun _ _ h => h.imp fun hbad hall =>
      hbad fun u hu => hall u (by simp [hu])

end

/-! ## Sets of patterns -/

theorem finish_ensures (index : Nat) (t : Tree) (a : Assembly) :
    Ensures (finish index t) a
      (fun _ b => Adds a.insts.size a b ∧ ∀ insts, Grows b.insts insts → ∃ k : Nat,
        b.insts.size = k + 1 ∧ t.layout insts a.insts.size k k ∧ insts[k]? = some (.accept index))
      fun _ _ => ¬ t.WellFormed := by
  refine (ofTree_builds t a).bind fun f b hf => ?_
  obtain ⟨-, hadds, hopen, hyields⟩ := hf
  refine hopen.linkHere_ensures.bind_sure fun _ b₁ hl => ?_
  refine push_ensures.bind fun n c hc => ?_
  obtain ⟨rfl, hc⟩ := hc
  have hpush : Adds b₁.insts.size b₁ c := .push hc
  have hb₁ := hadds.trans (hl.adds hopen hadds.size_le)
  refine ensures_pure ⟨hb₁.append hpush, fun insts hg => ⟨b.insts.size, ?_, ?_, ?_⟩⟩
  · simp [hc, hl.size]
  · have hg₁ := hpush.grows.trans hg
    exact hyields insts _ (hl.grows.trans hg₁) (hl.leads hg₁)
  · obtain ⟨inst, hi, rfl⟩ := hg b₁.insts.size (.accept index) (by simp [hc])
    rw [← hl.size, hi]

/-- From one position up to another the instructions hold a pattern: the split that leads behind it,
unless it is the last one, its code and its end. -/
def Holds (insts : Array Inst) (index : Nat) (t : Tree) (isLast : Bool) (i j : Nat) : Prop :=
  ∃ k : Nat, j = k + 1 ∧ insts[k]? = some (.accept index) ∧
    if isLast then t.layout insts i k k
    else insts[i]? = some (.split ↑(i + 1) j) ∧ t.layout insts (i + 1) k k

theorem turn_ensures (index : Nat) (t : Tree) (isLast : Bool) (a : Assembly) :
    Ensures (turn index t isLast) a
      (fun _ b => Adds a.insts.size a b ∧ ∀ insts, Grows b.insts insts →
        Holds insts index t isLast a.insts.size b.insts.size)
      fun _ _ => ¬ t.WellFormed := by
  refine ensures_modify_bind ?_
  cases isLast with
  | true =>
    refine (finish_ensures index t _).mono fun _ b hb => ?_
    obtain ⟨hadds, hcode⟩ := hb
    refine ⟨{ hadds with }, fun insts hg => ?_⟩
    obtain ⟨k, hsize, hlayout, hk⟩ := hcode insts hg
    exact ⟨k, hsize, hk, hlayout⟩
  | false =>
    refine push_ensures.bind fun n a₁ ha₁ => ?_
    obtain ⟨rfl, ha₁⟩ := ha₁
    replace ha₁ : a₁.insts = a.insts.push (.split .hole .hole) := ha₁
    have hsize : a₁.insts.size = a.insts.size + 1 := by simp [ha₁]
    have hsplit := split_open true ha₁
    have hfirst := hsplit.head
    refine hfirst.linkHere_ensures.bind_sure fun _ a₂ hl => ?_
    refine (finish_ensures index t a₂).bind fun _ b hb => ?_
    obtain ⟨hadds, hcode⟩ := hb
    have hsecond : Open a.insts.size b [⟨a.insts.size, .second⟩] := by
      refine (hl.isOpen hsplit.tail ?_).keep hadds
      simp [enter, leave]
    refine (hsecond.linkHere_ensures.imp (fun _ c hl₁ => ?_) fun _ _ h => h.elim)
    have ha₂ : Adds a.insts.size a a₂ := (Adds.push ha₁).trans (hl.adds hfirst (by omega))
    have hb := ha₂.append hadds
    refine ⟨hb.trans (hl₁.adds hsecond hb.size_le), fun insts hg => ?_⟩
    have hg₁ := hl₁.grows.trans hg
    obtain ⟨k, hk, hlayout, haccept⟩ := hcode insts hg₁
    rw [hl.size, hsize] at hlayout
    refine ⟨k, hl₁.size.trans hk, haccept, ?_⟩
    have hfork : insts[a.insts.size]? = some (.fork true a₁.insts.size b.insts.size) :=
      fork_of_slots (hl.grows.trans (hadds.grows.trans hg₁)) (by simp [ha₁])
        (hl.leads (hadds.grows.trans hg₁) _ (List.mem_singleton_self _))
        (hl₁.leads hg _ (List.mem_singleton_self _))
    rw [hsize, ← hl₁.size] at hfork
    exact ⟨hfork, hlayout⟩

/-- The instructions hold the code of the patterns from the index on. -/
def Chained (index : Nat) : List Tree → Array Inst → Nat → Prop
  | [], _, _ => True
  | [t], insts, i => ∃ k : Nat, t.layout insts i k k ∧ insts[k]? = some (.accept index)
  | t :: u :: ts, insts, i => ∃ j k : Nat, insts[i]? = some (.split ↑(i + 1) j) ∧
    t.layout insts (i + 1) k k ∧ insts[k]? = some (.accept index) ∧
      Chained (index + 1) (u :: ts) insts j

/-- One more pattern in front. -/
theorem Holds.chained {insts : Array Inst} {index i j : Nat} {t : Tree} {ts : List Tree}
    (h : Holds insts index t ts.isEmpty i j) (hrest : Chained (index + 1) ts insts j) :
    Chained index (t :: ts) insts i := by
  obtain ⟨k, -, hk, hcode⟩ := h
  cases ts with
  | nil => exact ⟨k, hcode, hk⟩
  | cons u ts => exact ⟨j, k, hcode.1, hcode.2, hk, hrest⟩

theorem chain_ensures (index : Nat) (ts : List Tree) (a : Assembly) :
    Ensures (chain index ts) a
      (fun _ b => Adds a.insts.size a b ∧ ∀ insts, Grows b.insts insts →
        Chained index ts insts a.insts.size)
      fun _ _ => ¬ ∀ t ∈ ts, t.WellFormed := by
  induction ts generalizing index a with
  | nil => exact ensures_pure ⟨.refl (Nat.le_refl _), fun _ _ => trivial⟩
  | cons t ts ih =>
    rw [chain_cons]
    refine ((turn_ensures index t ts.isEmpty a).imp (fun _ _ hb => hb) fun _ _ ht hall => ?_).bind
      fun _ b hb => ?_
    · exact ht (hall t (by simp))
    obtain ⟨hadds, hheld⟩ := hb
    refine (ih (index + 1) b).imp (fun _ c hc => ?_) fun _ _ hbad hall => ?_
    · obtain ⟨hadds₁, hrest⟩ := hc
      exact ⟨hadds.append hadds₁, fun insts hg =>
        (hheld insts (hadds₁.grows.trans hg)).chained (hrest insts hg)⟩
    · exact hbad fun v hv => hall v (List.mem_cons_of_mem _ hv)

end Munch.AssemblyM
