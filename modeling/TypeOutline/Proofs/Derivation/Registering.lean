import TypeOutline.Proofs.Arena.Growth
import TypeOutline.Proofs.Derivation.Definitions

/-!
# The registry in the arena

Registering the type of a finished node copies the tree of the node to
the end of the arena, cuts the copy down and links it below the top of
the definitions. Nothing else of the arena changes, and the trees of the
definitions are what `record` says (`register?_of_shows`).

As the types of all nodes below a finished one are defined already,
cutting down never has to register another type first. It changes nodes
of the copy only (`prune?_of_shows`).
-/

namespace TypeOutline

namespace Schema

variable {s s' : Schema}

/-! ## Finding a definition -/

theorem childByName?_congr {p : NodeId} (hc : s'.children p = s.children p)
    (ha : ∀ c ∈ s.children p, s'.attrs c = s.attrs c) (name : String) :
    s'.childByName? p name = s.childByName? p name := by
  rw [childByName?, childByName?, hc, ← List.head?_filter, ← List.head?_filter]
  congr 1
  refine List.filter_congr fun c hcm => ?_
  rw [ha c hcm]

theorem isSome_childByName? {p : NodeId} {name : String} :
    (s.childByName? p name).isSome = true ↔ ∃ c ∈ s.children p, (s.attrs c).name = name := by
  rw [childByName?, List.find?_isSome]
  simp

/-! ## Cutting down a copy -/

/-- The tops and the definitions lie before `lo`. -/
structure Before (s : Schema) (lo : Nat) : Prop where
  root_lt : s.root < lo
  typeRefs_lt : s.typeRefs < lo
  definitions_lt : ∀ c ∈ s.children s.typeRefs, c < lo

theorem Before.mono {lo hi : Nat} (h : s.Before lo) (hle : lo ≤ hi) : s.Before hi where
  root_lt := Nat.lt_of_lt_of_le h.root_lt hle
  typeRefs_lt := Nat.lt_of_lt_of_le h.typeRefs_lt hle
  definitions_lt c hc := Nat.lt_of_lt_of_le (h.definitions_lt c hc) hle

/-- What is changed or added from `lo` on concerns neither tops nor definitions. -/
theorem Before.frame {lo : Nat} (h : s.Before lo) (hlo : lo ≤ s.nodes.size)
    (hg : Grows s s' (lo ≤ ·)) : s'.Before lo ∧
      ∀ name, s'.childByName? s'.typeRefs name = s.childByName? s.typeRefs name := by
  have hnode : ∀ k, k < lo → s'.node? k = s.node? k := fun k hk =>
    hg.node?_eq k (Nat.lt_of_lt_of_le hk hlo) (Nat.not_le_of_lt hk)
  have hchildren : s'.children s'.typeRefs = s.children s.typeRefs := by
    rw [hg.typeRefs_eq]
    exact children_congr (hnode _ h.typeRefs_lt)
  refine ⟨⟨?_, ?_, ?_⟩, fun name => ?_⟩
  · rw [hg.root_eq]
    exact h.root_lt
  · rw [hg.typeRefs_eq]
    exact h.typeRefs_lt
  · rw [hchildren]
    exact h.definitions_lt
  · rw [hg.typeRefs_eq] at hchildren ⊢
    have hattrs := fun c hc => attrs_congr (hnode c (h.definitions_lt c hc))
    exact childByName?_congr hchildren hattrs name

/-- The types of the nodes of a tree are registered, as far as they will be. -/
def Registered (s : Schema) (as : List Attributes) : Prop :=
  ∀ a ∈ as, ∀ n, a.defines? = some n → (s.childByName? s.typeRefs n).isSome

/-- The nodes between `lo` and `hi`, and no others, were changed. -/
structure Changed (s s' : Schema) (lo hi : Nat) : Prop where
  sound : s'.Sound
  size_eq : s'.nodes.size = s.nodes.size
  grows : Grows s s' (fun k => lo ≤ k ∧ k < hi)

theorem Changed.refl (h : s.Sound) (lo hi : Nat) : Changed s s lo hi := ⟨h, rfl, .refl s _⟩

theorem Changed.trans {s'' : Schema} {lo hi lo' hi' : Nat} (h : Changed s s' lo hi)
    (h' : Changed s' s'' lo' hi') (hlo : lo ≤ lo') (hhi : hi' ≤ hi) : Changed s s'' lo hi where
  sound := h'.sound
  size_eq := h'.size_eq.trans h.size_eq
  grows := h.grows.trans h'.grows fun _ _ hk =>
    ⟨Nat.le_trans hlo hk.1, Nat.lt_of_lt_of_le hk.2 hhi⟩

theorem Changed.mono {lo hi lo' hi' : Nat} (h : Changed s s' lo hi) (hlo : lo' ≤ lo)
    (hhi : hi ≤ hi') : Changed s s' lo' hi' :=
  { h with grows := h.grows.mono fun _ _ hk =>
      ⟨Nat.le_trans hlo hk.1, Nat.lt_of_lt_of_le hk.2 hhi⟩ }

/-- A node that is a reference already, once its own type is registered. -/
theorem registerWith?_of_registered {prune : NodeId → Schema → Option Schema} {id : NodeId}
    (h : s.Registered [s.attrs id]) : registerWith? prune id s = some s := by
  unfold registerWith?
  dsimp only
  split
  · rfl
  · rename_i hname
    split
    · rfl
    · rename_i hfound
      split
      · rfl
      · rename_i hcyc
        refine absurd (h _ (List.mem_singleton_self _) _ ?_) hfound
        exact defines?_eq_some.mpr ⟨bne_iff_ne.mpr hname, Bool.not_eq_true _ ▸ hcyc, rfl⟩

/-- A reference loses its members at once. -/
theorem prune?_of_reference {a : Attributes} {ts : List (Rose Attributes)} {lo hi id : Nat}
    (hs : s.Sound) (ht : Shows s lo hi id (.node a ts)) (hhi : hi ≤ s.nodes.size)
    (href : a.isReference = true) (hreg : s.Registered [a]) (depth : Nat) :
    ∃ s', prune? (depth + 1) id s = some s' ∧ Changed s s' lo hi
      ∧ Shows s' lo hi id (Rose.node a ts).cut := by
  have ha : s.attrs id = a := ht.attrs_eq
  have hid : id < s.nodes.size := Nat.lt_of_lt_of_le ht.lt hhi
  have hbounds := ht.showsAll.mem_bounds
  have hself := attrs_modifyAttrs_self hid fun a => { a with defect := none }
  rw [ha] at hself
  have hmodify : Changed s (s.modifyAttrs id fun a => { a with defect := none }) lo hi :=
    ⟨hs.modifyAttrs _ _, size_modifyAttrs .., (grows_modifyAttrs s id _).mono fun k _ hk =>
      hk ▸ ⟨ht.le, ht.lt⟩⟩
  rw [prune?, ha, if_pos href]
  by_cases hcyc : a.isCyclical = true
  · rw [if_pos hcyc]
    refine ⟨s.modifyAttrs id fun a => { a with defect := none }, rfl, hmodify, ?_⟩
    rw [Rose.cut, if_pos href, if_pos hcyc]
    refine ⟨ht.le, ht.lt, hself, ?_⟩
    rw [children_modifyAttrs]
    exact ht.showsAll.frame ((grows_modifyAttrs s id _).agree hhi fun k hk _ => Nat.ne_of_gt hk)
  · rw [if_neg hcyc, registerWith?_of_registered (by rw [ha]; exact hreg)]
    refine ⟨(s.removeAllChildren id).modifyAttrs id fun a => { a with defect := none }, rfl, ?_, ?_⟩
    · refine ⟨(hs.removeAllChildren id).modifyAttrs _ _, by simp, by simp, by simp, by simp, ?_⟩
      intro k _ hk
      have hne : k ≠ id := fun h => hk (h ▸ ⟨ht.le, ht.lt⟩)
      rw [node?_modifyAttrs_of_ne hne, node?_removeAllChildren hne]
      intro hkc
      obtain ⟨hlo, hlt⟩ := hbounds k hkc
      exact hk ⟨Nat.le_trans ht.le (Nat.le_of_succ_le hlo), hlt⟩
    · rw [Rose.cut, if_pos href, if_neg hcyc]
      refine ⟨ht.le, ht.lt, ?_, ?_⟩
      · rw [attrs_modifyAttrs_self (by simpa using hid), attrs_removeAllChildren, ha]
      · rw [children_modifyAttrs, children_removeAllChildren, if_pos rfl]
        exact ht.lt

mutual

/-- Cutting down a tree whose types are all registered. -/
theorem prune?_of_shows : (t : Rose Attributes) → ∀ {depth lo hi id : Nat} {s : Schema},
    t.height ≤ depth → s.Sound → Shows s lo hi id t → hi ≤ s.nodes.size → s.Before lo →
      s.Registered t.preorder →
      ∃ s', prune? depth id s = some s' ∧ Changed s s' lo hi ∧ Shows s' lo hi id t.cut
  | .node a ts, 0, _, _, _, _, hd, _, _, _, _, _ => by simp [Rose.height] at hd
  | .node a ts, depth + 1, lo, hi, id, s, hd, hs, ht, hhi, hbefore, hreg => by
      by_cases href : a.isReference = true
      · refine prune?_of_reference hs ht hhi href (fun b hb => hreg b ?_) depth
        exact List.mem_singleton.mp hb ▸ List.mem_cons_self
      · have ha : s.attrs id = a := ht.attrs_eq
        have hle : lo ≤ id + 1 := Nat.le_succ_of_le ht.le
        obtain ⟨s', hs', hchanged, hshows⟩ :=
          prune?_of_showsAll ts (Nat.le_of_succ_le_succ hd) hs ht.showsAll hhi
            (hbefore.mono hle) fun b hb => hreg b (List.mem_cons_of_mem a hb)
        have hnode : s'.node? id = s.node? id :=
          hchanged.grows.node?_eq id (Nat.lt_of_lt_of_le ht.lt hhi) fun h =>
            Nat.not_succ_le_self id h.1
        refine ⟨s', ?_, hchanged.mono hle (Nat.le_refl hi), ?_⟩
        · rw [prune?, ha, if_neg href]
          exact hs'
        · rw [Rose.cut, if_neg href]
          refine ⟨ht.le, ht.lt, (attrs_congr hnode).trans ha, ?_⟩
          rw [children_congr hnode]
          exact hshows

theorem prune?_of_showsAll : (ts : List (Rose Attributes)) →
    ∀ {depth lo hi : Nat} {cs : List NodeId} {s : Schema},
    Rose.heightAll ts ≤ depth → s.Sound → ShowsAll s lo hi cs ts → hi ≤ s.nodes.size →
      s.Before lo → s.Registered (Rose.preorderAll ts) →
      ∃ s', cs.foldlM (fun s c => prune? depth c s) s = some s' ∧ Changed s s' lo hi
        ∧ ShowsAll s' lo hi cs (Rose.cutAll ts)
  | [], _, lo, hi, [], s, _, hs, h, _, _, _ => ⟨s, rfl, .refl hs lo hi, h⟩
  | [], _, _, _, _ :: _, _, _, _, h, _, _, _ => h.elim
  | _ :: _, _, _, _, [], _, _, _, h, _, _, _ => h.elim
  | t :: ts, depth, lo, hi, c :: cs, s, hd, hs, ⟨mid, ht, hts⟩, hhi, hbefore, hreg => by
      rw [Rose.heightAll] at hd
      have hmid : mid ≤ hi := hts.le
      have hlo : lo ≤ mid := Nat.le_trans ht.le (Nat.le_of_lt ht.lt)
      obtain ⟨s₁, hs₁, hchanged, hshows⟩ :=
        prune?_of_shows t (Nat.le_trans (Nat.le_max_left ..) hd) hs ht (Nat.le_trans hmid hhi)
          hbefore fun b hb => hreg b (List.mem_append_left _ hb)
      obtain ⟨hbefore₁, hfound⟩ := hbefore.frame
        (Nat.le_trans hlo (Nat.le_trans hmid hhi)) (hchanged.grows.mono fun _ _ hk => hk.1)
      have hts₁ : ShowsAll s₁ mid hi cs ts :=
        hts.frame (hchanged.grows.agree hhi fun k hk _ h => Nat.not_lt_of_le hk h.2)
      obtain ⟨s₂, hs₂, hchanged₂, hshows₂⟩ :=
        prune?_of_showsAll ts (Nat.le_trans (Nat.le_max_right ..) hd) hchanged.sound hts₁
          (by rw [hchanged.size_eq]; exact hhi) (hbefore₁.mono hlo) fun b hb n hn => by
            rw [hfound]
            exact hreg b (List.mem_append_right _ hb) n hn
      refine ⟨s₂, ?_, ?_, mid, ?_, hshows₂⟩
      · rw [List.foldlM_cons, hs₁]
        exact hs₂
      · exact (hchanged.mono (Nat.le_refl _) hmid).trans hchanged₂ hlo (Nat.le_refl _)
      · refine hshows.frame (hchanged₂.grows.agree ?_ fun k _ hk h => Nat.not_lt_of_le h.1 hk)
        rw [hchanged.size_eq]
        exact Nat.le_trans hmid hhi

end

/-! ## The registry -/

/-- The top of the definitions. -/
def typeRefsTop : Attributes := { name := typeRefsName, generic := .root }

/-- The definitions of the arena are those of the registry, and no node
that is still worked on lies in one of them. -/
structure Holds (s : Schema) (R : List (Rose Attributes)) (busy : Nat → Prop) : Prop where
  attrs_eq : s.attrs s.typeRefs = typeRefsTop
  shows : List.Forall₂ (fun c t => ∃ hi, hi ≤ s.nodes.size ∧ Shows s c hi c t
    ∧ ∀ k, c ≤ k → k < hi → ¬ busy k) (s.children s.typeRefs) R

section Holds

variable {R : List (Rose Attributes)} {busy : Nat → Prop}

theorem Holds.mono {busy' : Nat → Prop} (h : s.Holds R busy)
    (hb : ∀ k, k < s.nodes.size → busy' k → busy k) : s.Holds R busy' where
  attrs_eq := h.attrs_eq
  shows := h.shows.imp fun _ _ ⟨hi, hhi, ht, hfree⟩ =>
    ⟨hi, hhi, ht, fun k hk hlt hb' => hfree k hk hlt (hb k (Nat.lt_of_lt_of_le hlt hhi) hb')⟩

/-- Only busy nodes say something else or have other children, so the
definitions show the same trees. -/
theorem Holds.frame_rows (h : s.Holds R busy) (hsize : s.nodes.size ≤ s'.nodes.size)
    (hag : ∀ k, k < s.nodes.size → ¬ busy k →
      s'.attrs k = s.attrs k ∧ s'.children k = s.children k) :
    List.Forall₂ (fun c t => ∃ hi, hi ≤ s'.nodes.size ∧ Shows s' c hi c t
      ∧ ∀ k, c ≤ k → k < hi → ¬ busy k) (s.children s.typeRefs) R := by
  refine h.shows.imp fun c t ⟨hi, hhi, ht, hfree⟩ => ?_
  refine ⟨hi, Nat.le_trans hhi hsize, ht.frame fun k hk hlt => ?_, hfree⟩
  exact hag k (Nat.lt_of_lt_of_le hlt hhi) (hfree k hk hlt)

theorem agree_of_grows {touched : Nat → Prop} (hg : Grows s s' touched)
    (hb : ∀ k, k < s.nodes.size → touched k → busy k) (k : Nat) (hk : k < s.nodes.size)
    (hfree : ¬ busy k) : s'.attrs k = s.attrs k ∧ s'.children k = s.children k := by
  have hnode := hg.node?_eq k hk fun h => hfree (hb k hk h)
  exact ⟨attrs_congr hnode, children_congr hnode⟩

theorem Holds.frame {touched : Nat → Prop} (h : s.Holds R busy) (hg : Grows s s' touched)
    (hb : ∀ k, k < s.nodes.size → touched k → busy k) (htop : ¬ touched s.typeRefs)
    (hlt : s.typeRefs < s.nodes.size) : s'.Holds R busy := by
  have hnode := hg.node?_eq _ hlt htop
  refine ⟨?_, ?_⟩
  · rw [hg.typeRefs_eq, attrs_congr hnode]
    exact h.attrs_eq
  · rw [hg.typeRefs_eq, children_congr hnode]
    exact h.frame_rows hg.size_le (agree_of_grows hg hb)

/-- A name is found exactly if it is defined. -/
theorem Holds.isSome_childByName? (h : s.Holds R busy) (name : String) :
    (s.childByName? s.typeRefs name).isSome = true ↔ Defined R name := by
  rw [Schema.isSome_childByName?]
  have hrows := h.shows
  clear h
  generalize s.children s.typeRefs = cs at hrows
  unfold Defined
  induction hrows with
  | nil => simp
  | cons hct _ ih =>
      obtain ⟨hi, -, ht, -⟩ := hct
      simp only [List.mem_cons, exists_eq_or_imp, ih, ht.attrs_eq]

/-- A definition refers to no type itself. -/
theorem isReference_definition (a : Attributes) : a.definition.isReference = false := by
  unfold Attributes.isReference Attributes.native Attributes.override? Attributes.definition
  rw [Dictionary.find?_mapValues]
  cases a.overrides.find? nativeDialect <;> rfl

theorem registerWith?_of_defines?_none {prune : NodeId → Schema → Option Schema} {id : NodeId}
    (h : (s.attrs id).defines? = none) : registerWith? prune id s = some s :=
  registerWith?_of_registered fun a ha n hn => by
    rw [List.mem_singleton.mp ha, h] at hn
    cases hn

/-- The copy of a finished node, named for its type and cut down to references. -/
theorem prune?_of_copy {t : Rose Attributes} {depth : Nat} (hs : s.Sound)
    (hheight : t.height ≤ depth) (hholds : s.Holds R busy)
    (hsettled : ∀ a ∈ Rose.preorderAll t.children, Settled R a) :
    ∃ s', prune? depth s.nodes.size
          ((s.graft t).modifyAttrs s.nodes.size (·.definition)) = some s'
      ∧ s'.Sound ∧ Grows s s' (fun _ => False) ∧ s'.parent? s.nodes.size = none
      ∧ Shows s' s.nodes.size s'.nodes.size s.nodes.size t.definition := by
  have hgrafted := grafted_graft t hs.toLinked
  have hsound := hgrafted.sound hs
  obtain ⟨-, hgrows, hnone, -, hshows⟩ := hgrafted
  generalize s.graft t = s₁ at hsound hgrows hnone hshows
  obtain ⟨a, ts⟩ := t
  obtain ⟨depth, rfl⟩ : ∃ d, depth = d + 1 :=
    Nat.exists_eq_add_of_le' (Nat.le_trans (Nat.le_add_left 1 _) hheight)
  have hlt : s.nodes.size < s₁.nodes.size := hshows.lt
  -- the copy takes over the name of the type
  have hg₁ := grows_modifyAttrs s₁ s.nodes.size (·.definition)
  have ha := attrs_modifyAttrs_self hlt (·.definition)
  rw [hshows.attrs_eq, Rose.label] at ha
  have hg₂ : Grows s (s₁.modifyAttrs s.nodes.size (·.definition)) (fun _ => False) :=
    hgrows.trans hg₁ fun k hk heq => absurd heq (Nat.ne_of_lt hk)
  have hts : ShowsAll (s₁.modifyAttrs s.nodes.size (·.definition)) (s.nodes.size + 1)
      s₁.nodes.size (s₁.children s.nodes.size) ts :=
    hshows.showsAll.frame (hg₁.agree (Nat.le_refl _) fun k hk _ => Nat.ne_of_gt hk)
  have hbefore : s.Before s.nodes.size :=
    ⟨hs.root_lt, hs.typeRefs_lt, fun c hc => hs.lt_size_of_mem hc⟩
  obtain ⟨hbefore₂, hfound⟩ := hbefore.frame (Nat.le_refl _) (hg₂.mono fun _ _ h => h.elim)
  -- below it the references lose their members
  obtain ⟨s₃, hs₃, hchanged, hshows₃⟩ := prune?_of_showsAll ts
    (Nat.le_of_succ_le_succ hheight) (hsound.modifyAttrs _ _) hts
    (Nat.le_of_eq (size_modifyAttrs ..).symm) (hbefore₂.mono (Nat.le_succ _)) fun b hb n hn => by
      rw [hfound, hholds.isSome_childByName?]
      exact hsettled b hb n hn
  have hnode : s₃.node? s.nodes.size =
      (s₁.modifyAttrs s.nodes.size (·.definition)).node? s.nodes.size :=
    hchanged.grows.node?_eq _ (by simpa using hlt) fun h => Nat.not_succ_le_self _ h.1
  refine ⟨s₃, ?_, hchanged.sound, ?_, ?_, ?_⟩
  · rw [prune?, ha, if_neg (by rw [isReference_definition]; decide), children_modifyAttrs]
    exact hs₃
  · exact hg₂.trans hchanged.grows fun k hk h =>
      Nat.not_lt_of_le (Nat.le_of_succ_le h.1) hk
  · rw [parent?_congr hnode, parent?_modifyAttrs]
    exact hnone
  · have hsize : s₃.nodes.size = s₁.nodes.size := hchanged.size_eq.trans (size_modifyAttrs ..)
    rw [hsize]
    refine ⟨Nat.le_refl _, hlt, (attrs_congr hnode).trans ha, ?_⟩
    rw [children_congr hnode, children_modifyAttrs]
    exact hshows₃

/-- A tree at the end of the arena becomes the last definition. -/
theorem holds_attach {t : Rose Attributes} {c : Nat} (hs : s.Sound) (hholds : s.Holds R busy)
    (hs' : s'.Sound) (hg : Grows s s' (fun _ => False)) (hc : s.nodes.size ≤ c)
    (hnone : s'.parent? c = none) (ht : Shows s' c s'.nodes.size c t)
    (hbusy : ∀ k, busy k → k < s.nodes.size) (htop : busy s.typeRefs) :
    (s'.attach s'.typeRefs c).Sound ∧ Grows s (s'.attach s'.typeRefs c) (· = s.typeRefs)
      ∧ (s'.attach s'.typeRefs c).Holds (R ++ [t]) busy := by
  have hlt : c < s'.nodes.size := ht.lt
  have hrefs : s.typeRefs < c := Nat.lt_of_lt_of_le hs.typeRefs_lt hc
  have hroot : s.root < c := Nat.lt_of_lt_of_le hs.root_lt hc
  have hold : s'.node? s.typeRefs = s.node? s.typeRefs := hg.node?_eq _ hs.typeRefs_lt id
  have hattach := grows_attach s' s.typeRefs c
  have hgrows : Grows s (s'.attach s.typeRefs c) (· = s.typeRefs) :=
    (hg.mono fun _ _ h => h.elim).trans hattach fun k hk h => h.elim (fun h => h) fun h =>
      absurd (h ▸ hk) (Nat.not_lt_of_le hc)
  have hlt' : s.typeRefs < s'.nodes.size := Nat.lt_trans hrefs hlt
  rw [hg.typeRefs_eq]
  refine ⟨hs'.attach hrefs hlt hnone ?_ ?_, hgrows, ?_, ?_⟩
  · rw [hg.root_eq]
    exact Nat.ne_of_gt hroot
  · rw [hg.typeRefs_eq]
    exact Nat.ne_of_gt hrefs
  · rw [typeRefs_attach, hg.typeRefs_eq, attrs_attach, attrs_congr hold]
    exact hholds.attrs_eq
  · rw [typeRefs_attach, hg.typeRefs_eq, children_attach hlt', if_pos rfl, children_congr hold]
    have hrows := hholds.frame_rows hgrows.size_le (agree_of_grows hgrows fun k _ h => h ▸ htop)
    refine List.rel_append hrows (.cons ?_ .nil)
    refine ⟨s'.nodes.size, Nat.le_of_eq (size_attach ..).symm, ?_, fun k hk _ hb => ?_⟩
    · exact ht.frame (agree_attach hlt' hrefs)
    · exact Nat.not_lt_of_le (Nat.le_trans hc hk) (hbusy k hb)

/-- Registering the type of a finished node. -/
theorem register?_of_shows {id : NodeId} {t : Rose Attributes} (hs : s.Sound)
    (ht : Shows s id s.nodes.size id t) (hholds : s.Holds R busy)
    (hbusy : ∀ k, busy k → k < s.nodes.size) (htop : busy s.typeRefs)
    (hsettled : ∀ a ∈ Rose.preorderAll t.children, Settled R a) :
    ∃ s', s.register? id = some s' ∧ s'.Sound ∧ Grows s s' (· = s.typeRefs)
      ∧ s'.Holds (record R t) busy := by
  have ha : s.attrs id = t.label := ht.attrs_eq
  rw [register?]
  cases hdef : t.label.defines? with
  | none =>
      rw [registerWith?_of_defines?_none (by rw [ha]; exact hdef)]
      simp only [record, hdef]
      exact ⟨s, rfl, hs, .refl s _, hholds⟩
  | some name =>
      simp only [record, hdef]
      by_cases hfound : Defined R name
      case pos =>
        have hreg : s.Registered [s.attrs id] := fun a ha' n hn => by
          rw [List.mem_singleton.mp ha', ha, hdef] at hn
          rw [hholds.isSome_childByName?, ← Option.some.inj hn]
          exact hfound
        rw [registerWith?_of_registered hreg, if_pos hfound]
        exact ⟨s, rfl, hs, .refl s _, hholds⟩
      case neg =>
        obtain ⟨href, hcyc, rfl⟩ := defines?_eq_some.mp hdef
        obtain ⟨r, hr, -⟩ := ht.subtree? (Nat.le_refl _)
        have hheight : t.height ≤ 2 * s.nodes.size := by
          have hle := ht.height_le
          omega
        obtain ⟨s', hs', hsound, hgrows, hnone, hshows⟩ :=
          prune?_of_copy hs hheight hholds hsettled
        have hlink : s'.addChild s'.typeRefs s.nextId = s'.attach s'.typeRefs s.nodes.size :=
          addChild_of_parent?_none hshows.lt hnone _
        have hcopy : s.copy? id = some (s.graft t) := by
          rw [copy?, hr, copy, ht.tree_eq (Nat.le_refl _)]
          rfl
        rw [if_neg hfound]
        refine ⟨s'.attach s'.typeRefs s.nodes.size, ?_,
          holds_attach hs hholds hsound hgrows (Nat.le_refl _) hnone hshows hbusy htop⟩
        have hname : t.label.native.typeRef ≠ "" := bne_iff_ne.mp href
        have hfind : ¬ (s.childByName? s.typeRefs t.label.native.typeRef).isSome = true :=
          fun h => hfound ((hholds.isSome_childByName? _).mp h)
        rw [registerWith?]
        simp only [ha, if_neg hname, if_neg hfind, hcyc, Bool.false_eq_true, if_false, hcopy,
          Option.bind_eq_bind, Option.bind_some, nextId]
        rw [hs', Option.bind_some, ← hlink]
        rfl

end Holds

end Schema

end TypeOutline
