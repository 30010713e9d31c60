/-
What `exec` builds.

The new image grows page by page in a table of its own, so its size is
bounded by the pages it took (`FullImage.paid`): however large a size an
executable asks for, the allocator is empty long before the image
reaches the fixed mappings. Below its size the image has no holes
(`FullImage.full`); the arguments are copied to the stack page, which is
there, so that no fault is taken on the way.
-/
import GemOS.Proofs.KeptSystem
import GemOS.Proofs.Fork
import GemOS.Proofs.Sbrk

namespace GemOS

open Function Prog

variable {E : Fault → Prop} {k : Nat} {F : Nat → Prop} {s s1 : Kernel} {root sz : Nat}

/-- An image of size `sz` in the table at `root`, built since `s`. -/
structure Image (k : Nat) (F : Nat → Prop) (root : Nat) (s : Kernel)
    (sz : Nat) (s' : Kernel) : Prop where
  worked : Worked k F root s s'
  size : sz ≤ trapframeVa
  bounded : Bounded sz (s'.pagetables root).leaf

/-- An image without holes, paid for page by page. -/
structure FullImage (k : Nat) (F : Nat → Prop) (root : Nat) (s : Kernel)
    (sz : Nat) (s' : Kernel) : Prop extends Image k F root s sz s' where
  full : ∀ v < pagesOf sz, isV ((s'.pagetables root).leaf v) = true
    ∧ isU ((s'.pagetables root).leaf v) = true
  paid : pagesOf sz + s'.avail.length ≤ ramPages

/-- Only bytes were written. -/
def MemOnly (s s' : Kernel) : Prop := { s with mem := s'.mem } = s'

theorem MemOnly.trans {s2 : Kernel} (h : MemOnly s s1) (h' : MemOnly s1 s2) : MemOnly s s2 := by
  unfold MemOnly at *
  rw [← h', ← h]

/-- Bytes are written. -/
theorem Worked.mem (h : Worked k F root s s1) (m : Nat → Page) :
    Worked k F root s { s1 with mem := m } :=
  ⟨h.beside, h.others, ⟨h.stock.kend, h.stock.avail⟩, h.good⟩

theorem Image.mem (h : Image k F root s sz s1) (m : Nat → Page) :
    Image k F root s sz { s1 with mem := m } :=
  ⟨h.worked.mem m, h.size, h.bounded⟩

theorem FullImage.mem (h : FullImage k F root s sz s1) (m : Nat → Page) :
    FullImage k F root s sz { s1 with mem := m } :=
  { h.toImage.mem m with full := h.full, paid := h.paid }

theorem Worked.trans {s2 : Kernel} (h : Worked k F root s s1)
    (h' : Worked k F root s1 s2) : Worked k F root s s2 :=
  ⟨h'.beside.trans h.beside, fun r hr => (h'.others r hr).trans (h.others r hr), h'.stock, h'.good⟩

-- ======== growing

theorem isU_mapped (w x : Nat) : isU (w ||| (pteR ||| pteU ||| x) ||| pteV) = true := by
  rw [isU_eq, Nat.testBit_or, Nat.testBit_or, Nat.testBit_or,
    show Nat.testBit (pteR ||| pteU) 4 = true by decide, Bool.true_or, Bool.or_true, Bool.true_or]

/-- `uvmalloc` on an image: a larger one without holes, or the one there
was. -/
theorem wp_uvmalloc_image (hF : Takes E k F) {newsz xperm : Nat}
    (hperm : pteR ||| pteU ||| xperm < 1024) (h : FullImage k F root s sz s1) :
    wp E (uvmalloc root sz newsz xperm) (fun r s' =>
      (r = max sz newsz ∧ FullImage k F root s r s')
      ∨ (r = 0 ∧ Image k F root s sz s')) s1 := by
  by_cases hle : sz ≤ newsz
  · refine (wp_uvmalloc hF hperm h.size hle (.inr h.paid) h.worked.stock
      h.worked.good h.bounded.noneFrom).mono fun r s' hg => ?_
    cases hg with
    | all hext w hfill htop hpaid =>
      rw [pgroundup_vpn h.size] at hfill hpaid
      have hpages := pagesOf_mono hle
      refine .inl ⟨(max_eq_right hle).symm, ⟨⟨h.worked.trans w, htop,
        fun v hV => ?_⟩, fun v hv => ?_, ?_⟩⟩
      · by_cases hv : pagesOf sz ≤ v ∧ v < pagesOf newsz
        · exact .inl hv.2
        · rw [(hfill v).2 (by omega)] at hV
          exact h.bounded.mono hle v hV
      · by_cases hv' : pagesOf sz ≤ v
        · obtain ⟨pa, -, heq⟩ := (hfill v).1 hv' hv
          rw [heq]
          exact ⟨isV_or_pteV _, isU_mapped _ _⟩
        · rw [(hfill v).2 (by omega)]
          exact h.full v (by omega)
      · have := h.paid
        omega
    | none w hcut =>
      rw [pgroundup_vpn h.size] at hcut
      exact .inr ⟨rfl, h.worked.trans w, h.size, (hcut.same h.bounded.noneFrom).bounded h.bounded⟩
  · have hlt := Nat.not_le.mp hle
    refine .ite (fun _ => .pure (.inl ⟨(max_eq_left hlt.le).symm, h⟩)) fun hn => absurd hlt hn

-- ======== loading

/-- A look at a page. -/
theorem wp_walkaddr {va : Nat} (hlive : (s.pagetables root).live = true) :
    wp E (walkaddr root va) (fun r s' => s' = s ∧ (va < maxva →
      isV (s.pte root va) = true → isU (s.pte root va) = true → r = pte2pa (s.pte root va))) s := by
  refine .ite (fun h => .pure ⟨rfl, fun hva => by omega⟩) fun h => ?_
  refine .bind (wp_lookup (Nat.not_le.mp h) hlive) fun b s1 hb => ?_
  obtain ⟨rfl, rfl⟩ := hb
  refine .ite (fun _ => .get_bind (.ite (fun _ => .pure ⟨rfl, fun _ _ _ => rfl⟩)
    fun hn => .pure ⟨rfl, fun _ hV hU => absurd ⟨hV, hU⟩ hn⟩)) fun hmid =>
    .pure ⟨rfl, fun _ hV => ?_⟩
  exact absurd (mid_of_isV hV) hmid

theorem wp_loadseg {exe : Exe} {va off len : Nat} (hE : E (.panic "loadseg: address should exist"))
    (h : FullImage k F root s sz s1) :
    wp E (loadseg exe root va off len) (fun _ s' => FullImage k F root s sz s') s1 := by
  have hloop : ∀ n i {s1}, FullImage k F root s sz s1 → wp E (loadsegLoop exe root va off len n i)
        (fun _ s' => FullImage k F root s sz s') s1 := by
    intro n
    induction n with
    | zero => intro i s1 h; exact .pure h
    | succ n ih =>
      intro i s1 h
      refine .bind (wp_walkaddr h.worked.good.live) fun pa s2 hs => ?_
      obtain ⟨rfl, -⟩ := hs
      refine .ite (fun _ => .fault hE) fun _ => ?_
      cases exe.bytes ((off + i) % 2 ^ 32) (min (len - i) pgsize) with
      | none => exact .pure h
      | some bs => exact .modify_bind (ih _ (h.mem _))
  exact hloop _ _ h

/-- The image grows segment by segment. -/
theorem wp_loadProgram (hF : Takes E k F)
    (hE : E (.panic "loadseg: address should exist")) {exe : Exe}
    {phoff : Nat} (n : Nat) : ∀ {i sz : Nat} {s1 : Kernel}, FullImage k F root s sz s1 →
    wp E (loadProgram exe root phoff n i sz) (fun r s' =>
      Image k F root s r.2 s' ∧ (r.1 = true → FullImage k F root s r.2 s'))
      s1 := by
  induction n with
  | zero => intro i sz s1 h; exact .pure ⟨h.toImage, fun _ => h⟩
  | succ n ih =>
    intro i sz s1 h
    have hstop : wp E (pure (false, sz) : K (Bool × Nat)) (fun r s' =>
        Image k F root s r.2 s' ∧ (r.1 = true → FullImage k F root s r.2 s')) s1 :=
      .pure ⟨h.toImage, nofun⟩
    unfold loadProgram
    cases exe.ph ((phoff + i * phSize) % 2 ^ 32) with
    | none => exact hstop
    | some ph =>
      refine .ite (fun _ => ih h) fun _ => .ite (fun _ => hstop) fun _ =>
        .ite (fun _ => hstop) fun _ => .ite (fun _ => hstop) fun _ => ?_
      refine .bind (wp_uvmalloc_image hF (flags2perm_lt _) h) fun sz1 s2 hg => ?_
      refine .ite (fun hz => .pure ⟨?_, nofun⟩) fun hz => ?_
      · rcases hg with ⟨hmax, hfull⟩ | ⟨-, himg⟩
        · obtain rfl : sz = sz1 := by omega
          exact hfull.toImage
        · exact himg
      · obtain ⟨-, hfull⟩ := hg.resolve_right fun h => hz h.1
        refine .bind (wp_loadseg hE hfull) fun r s3 h3 => ?_
        exact .ite (fun _ => .pure ⟨h3.toImage, nofun⟩) fun _ => ih h3

-- ======== the stack

theorem pagesOf_mul (n : Nat) : pagesOf (n * pgsize) = n := by
  unfold pagesOf
  simp only [pgsize]
  omega

/-- The page at `base` is mapped for the user. -/
structure StackAt (F : Nat → Prop) (root base : Nat) (s : Kernel) : Prop where
  align : base % pgsize = 0
  low : pgsize ≤ base
  top : base < trapframeVa
  live : (s.pagetables root).live = true
  valid : isV (s.pte root base) = true
  user : isU (s.pte root base) = true
  page : F (pte2pa (s.pte root base))

theorem StackAt.write {base : Nat} (h : StackAt F root base s)
    (hm : MemOnly s s1) : StackAt F root base s1 := by
  rw [← hm]
  exact ⟨h.align, h.low, h.top, h.live, h.valid, h.user, h.page⟩

section stack

variable {me : ProcId} {base : Nat} (h0 : ∀ pa, F pa → pa ≠ 0)

include h0

/-- A copy into the stack page takes no fault. -/
theorem wp_copyout_stack {dstva : Nat} {src : List UInt8}
    (hlo : base ≤ dstva) (hhi : dstva + src.length ≤ base + pgsize) (h : StackAt F root base s) :
    wp E (copyout me root dstva src) (fun _ => MemOnly s) s := by
  have hdone : ∀ fuel va (s : Kernel),
      wp E (copyoutLoop me root fuel va []) (fun _ => MemOnly s) s := by
    intro fuel va s
    cases fuel <;> exact .pure rfl
  unfold copyout
  cases hsrc : src with
  | nil => exact hdone _ _ s
  | cons b bs =>
    rw [← hsrc]
    have hlen : src.length = bs.length + 1 := by rw [hsrc]; rfl
    have hva0 : pgrounddown dstva = base := by grind [h.align, pgrounddown]
    have hmax : base < maxva := h.top.trans (by decide)
    rw [hlen]
    unfold copyoutLoop
    rw [hva0]
    refine .ite (fun _ => .pure rfl) fun _ => .ite (fun hn => by omega) fun _ => ?_
    refine .bind (wp_walkaddr h.live) fun pa s1 hpa => ?_
    obtain ⟨rfl, hpa⟩ := hpa
    have hne : pa ≠ 0 := by
      rw [hpa hmax h.valid h.user]
      exact h0 _ h.page
    refine .ite (fun hz => absurd hz hne) fun _ => .pure_bind ?_
    refine .ite (fun hz => absurd hz hne) fun _ => ?_
    refine .bind (wp_lookup hmax h.live) fun b s2 hb => ?_
    obtain ⟨rfl, rfl⟩ := hb
    refine .ite (fun _ => .get_bind (.ite (fun _ => ?_) fun _ => .pure rfl))
      fun hmid => absurd (mid_of_isV h.valid) hmid
    -- the rest of the page takes all of it
    have hdrop : src.drop (pgsize - (dstva - base)) = [] := List.drop_eq_nil_of_le (by omega)
    dsimp only
    rw [hdrop]
    exact .modify_bind ((hdone _ _ _).mono fun _ s' hs => by
      refine .trans ?_ hs
      rfl)

/-- The arguments go below each other on the stack page, or do not
fit. -/
theorem wp_pushArgs (argv : List (List UInt8))
    (hargs : ∀ a ∈ argv, a.length < pgsize) : ∀ {sp : Nat} {ustack : List Nat}
    {s : Kernel}, base ≤ sp → sp ≤ base + pgsize → ustack.length ≤ maxArg → StackAt F root base s →
    wp E (pushArgs me root base argv sp ustack) (fun r s' => MemOnly s s'
      ∧ ∀ sp' us, r = some (sp', us) → base ≤ sp' ∧ sp' ≤ base + pgsize
        ∧ us.length ≤ maxArg) s := by
  induction argv with
  | nil =>
    intro sp ustack s hlo hhi hus _
    refine .pure ⟨rfl, fun sp' us heq => ?_⟩
    cases heq
    exact ⟨hlo, hhi, hus⟩
  | cons arg rest ih =>
    intro sp ustack s hlo hhi hus h
    have harg := hargs arg (List.mem_cons_self ..)
    have hlow := h.low
    have htop := h.top
    have hsp : addInt sp (-(arg.length + 1 : Int)) = sp - (arg.length + 1) := by
      grind [addInt]
    unfold pushArgs
    rw [hsp]
    refine .ite (fun _ => .pure ⟨rfl, nofun⟩) fun hmax => ?_
    dsimp only
    generalize hsp' : sp - (arg.length + 1) - (sp - (arg.length + 1)) % 16 = sp'
    refine .ite (fun _ => .pure ⟨rfl, nofun⟩) fun hbase => ?_
    have hfit : sp' + (arg ++ [0]).length ≤ base + pgsize := by
      grind [List.length_append, List.length_singleton]
    refine .bind (wp_copyout_stack h0 (Nat.not_lt.mp hbase) hfit h) fun r s1 hm => ?_
    refine .ite (fun _ => .pure ⟨hm, nofun⟩) fun _ => ?_
    refine (ih (fun a ha => hargs a (List.mem_cons_of_mem _ ha))
      (Nat.not_lt.mp hbase) ?_ ?_ (h.write hm)).mono fun r s' h' => ⟨hm.trans h'.1, h'.2⟩
    · exact (Nat.le_add_right ..).trans hfit
    · rw [List.length_cons]
      omega

/-- The pointers go under the strings. -/
theorem wp_pushUstack {sp : Nat} {ustack : List Nat} (hlo : base ≤ sp)
    (hhi : sp ≤ base + pgsize) (hus : ustack.length ≤ maxArg) (h : StackAt F root base s) :
    wp E (pushUstack me root base sp ustack) (fun _ => MemOnly s) s := by
  have hlow := h.low
  have htop := h.top
  have hlen : (ustack.reverse ++ [0]).length = ustack.length + 1 := by
    rw [List.length_append, List.length_reverse, List.length_singleton]
  have hsp : addInt sp (-(((ustack.reverse ++ [0]).length : Nat) * 8 : Int))
      = sp - (ustack.length + 1) * 8 := by grind [addInt]
  have hbytes : ∀ l : List Nat, (l.flatMap fun w => bytesOf w 8).length = l.length * 8 := by
    intro l
    induction l with
    | nil => rfl
    | cons w l ih => grind [bytesOf]
  unfold pushUstack
  dsimp only
  rw [hsp]
  refine .ite (fun _ => .pure rfl) fun hbase => ?_
  refine .bind (wp_copyout_stack h0 (Nat.not_lt.mp hbase) ?_ h)
    fun r s1 hm => .ite (fun _ => .pure hm) fun _ => .pure hm
  rw [hbytes, hlen]
  simp only [pgsize] at *
  omega

omit h0 in
/-- The guard page loses its user bit, the stack page above it is
ready. -/
theorem wp_uvmclear {n : Nat} (h : FullImage k F root s (n * pgsize) s1) (hn : 2 ≤ n) :
    wp E (uvmclear root ((n - 2) * pgsize)) (fun _ s' =>
      Image k F root s (n * pgsize) s' ∧ StackAt F root ((n - 1) * pgsize) s')
      s1 := by
  have hpages := pagesOf_mul n
  have htop : n ≤ userPages := by
    rw [← hpages]
    exact pagesOf_le h.size
  have hva : ∀ m < n, m * pgsize < trapframeVa ∧ m * pgsize < maxva := by grind
  obtain ⟨hV, hU⟩ := h.full (n - 1) (by omega)
  have hVg := (h.full (n - 2) (by omega)).1
  have hpte : ∀ (s : Kernel) m, s.pte root (m * pgsize) = (s.pagetables root).leaf m := by
    intro s m
    unfold Kernel.pte
    rw [vpn_mul]
  have hmid : ((s1.pagetables root).mid (((n - 2) * pgsize) >>> 21)).isSome := by
    refine mid_of_isV ?_
    rw [hpte]
    exact hVg
  refine .bind (wp_lookup (hva _ (by omega)).2 h.worked.good.live) fun b s2 hb => ?_
  obtain ⟨rfl, rfl⟩ := hb
  refine .ite (fun _ => .modify ?_) fun hn => absurd hmid hn
  generalize hw : clearFlag (s2.pte root ((n - 2) * pgsize)) pteU = w
  have hext := Extends.setLeaf root ((n - 2) * pgsize) w s2
  have hleaf : ((s2.setLeaf root ((n - 2) * pgsize) w).pagetables root).leaf
      = update (s2.pagetables root).leaf (n - 2) w := by
    grind [vpn_shift, vpn_mul, Kernel.setLeaf, Kernel.setTable_self, setLeaf_leaf]
  generalize s2.setLeaf root ((n - 2) * pgsize) w = s3 at hext hleaf ⊢
  have hgood : (s3.pagetables root).Good F root := by
    refine hext.good h.worked.stock h.worked.good (good_update h.worked.good ?_ hleaf)
    rw [← hw, pte2pa_clearFlag _ (by decide), hpte]
    exact h.worked.good.leaf _ (by omega) hVg
  have hkeep : s3.pte root ((n - 1) * pgsize) = (s2.pagetables root).leaf (n - 1) := by
    rw [hpte, hleaf, update_of_ne (by omega)]
  refine ⟨⟨⟨hext.beside.trans h.worked.beside, fun r hr =>
    (hext.others r hr).trans (h.worked.others r hr),
    hext.stock h.worked.stock, hgood⟩, h.size, fun v hV' => ?_⟩,
    Nat.mul_mod_left .., Nat.le_mul_of_pos_left _ (by omega),
    (hva _ (by omega)).1, hgood.live, hkeep ▸ hV, hkeep ▸ hU, ?_⟩
  · rw [hleaf] at hV'
    by_cases hv : v = n - 2
    · exact .inl (by omega)
    · rw [update_of_ne hv] at hV'
      exact h.bounded v hV'
  · rw [hkeep]
    exact h.worked.good.leaf _ (by omega) hV

/-- Two pages more: a guard and the stack. -/
theorem wp_buildStack (hF : Takes E k F) {argv : List (List UInt8)}
    (hargs : ∀ a ∈ argv, a.length < pgsize) (h : FullImage k F root s sz s1) :
    wp E (buildStack me root argv sz) (fun r s' => Image k F root s r.2 s') s1 := by
  obtain ⟨hup, hle, -⟩ := pgroundup_le h.size
  have hround : pgroundup sz = pagesOf sz * pgsize := pgroundup_pagesOf h.size
  rw [hround] at hup hle
  have himage : FullImage k F root s (pagesOf sz * pgsize) s1 :=
    ⟨⟨h.worked, hup, h.bounded.mono hle⟩, by rw [pagesOf_mul]; exact h.full,
      by rw [pagesOf_mul]; exact h.paid⟩
  unfold buildStack
  rw [hround]
  generalize pagesOf sz = n at himage
  have hsum : n * pgsize + (userStack + 1) * pgsize = (n + 2) * pgsize := by
    rw [← Nat.add_mul]
  dsimp only
  rw [hsum]
  refine .bind (wp_uvmalloc_image hF (by decide) himage) fun sz1 s2 hg => ?_
  have hmax : max (n * pgsize) ((n + 2) * pgsize) = (n + 2) * pgsize :=
    max_eq_right (Nat.mul_le_mul_right _ (Nat.le_add_right ..))
  rw [hmax] at hg
  rcases hg with ⟨rfl, hfull⟩ | ⟨rfl, himg⟩
  · have hguard : (n + 2) * pgsize - (userStack + 1) * pgsize
        = (n + 2 - 2) * pgsize := (Nat.sub_mul ..).symm
    have hbase : (n + 2) * pgsize - userStack * pgsize
        = (n + 2 - 1) * pgsize := (Nat.sub_mul ..).symm
    rw [hguard, hbase]
    refine .ite (fun hz => ?_) fun _ => ?_
    · simp only [pgsize] at hz
      omega
    refine .bind (wp_uvmclear hfull (Nat.le_add_left ..)) fun _ s3 h3 => ?_
    obtain ⟨himg, hstack⟩ := h3
    have hsp : (n + 2) * pgsize = (n + 2 - 1) * pgsize + pgsize := by
      rw [← Nat.succ_mul]
      rfl
    refine .bind (wp_pushArgs h0 argv hargs (Nat.mul_le_mul_right _
      (Nat.sub_le ..)) hsp.le (by decide) hstack) fun r s4 h4 => ?_
    obtain ⟨hm, hr⟩ := h4
    have hwrite : ∀ s', MemOnly s3 s' → Image k F root s ((n + 2) * pgsize) s' := by
      intro s' hs'
      rw [← hs']
      exact himg.mem _
    cases r with
    | none => exact .pure (hwrite _ hm)
    | some st =>
      obtain ⟨hlo, hhi, hus⟩ := hr st.1 st.2 rfl
      refine .bind (wp_pushUstack h0 hlo hhi hus (hstack.write hm))
        fun r s5 hm' => .pure (hwrite _ (hm.trans hm'))
  · exact .ite (fun _ => .pure himg) fun h => absurd rfl h

/-- The outcomes of `exec` by process `me`, whose table is at `old`: a
new image in its place, or everything as before. -/
inductive Execed (s : Kernel) (me : ProcId) (old : Nat) : Kernel → Prop
  | image {root sz : Nat} {s' : Kernel} : root ∈ s.avail →
      (∀ q, q ≠ me → s'.proc q = s.proc q) →
      (s'.proc me).pagetable = some root → (s'.proc me).sz = sz →
      Bounded sz (s'.pagetables root).leaf →
      (∀ r, r ≠ root → r ≠ old → s'.pagetables r = s.pagetables r) →
      Execed s me old s'
  | same {s' : Kernel} : s'.proc = s.proc →
      (∀ r, r ∉ s.avail → s'.pagetables r = s.pagetables r) →
      Execed s me old s'

omit h0 in
theorem wp_commitImage (me : ProcId) (root sz entry sp : Nat) (s : Kernel) :
    wp E (commitImage me root sz entry sp) (fun _ s' =>
      s'.pagetables = s.pagetables ∧ s'.kend = s.kend ∧ (∀ q, q ≠ me → s'.proc q = s.proc q)
        ∧ (s'.proc me).pagetable = some root ∧ (s'.proc me).sz = sz) s := by
  have hself := s.updProc_self me fun q => { q with pagetable := some root, sz := sz }
  have hother : ∀ q, q ≠ me → (s.updProc me fun q =>
      { q with pagetable := some root, sz := sz }).proc q = s.proc q :=
    fun q hq => s.updProc_of_ne _ hq
  refine .note_bind (.modify_bind (.modify ⟨rfl, rfl, hother, ?_, ?_⟩))
  · exact congrArg Proc.pagetable hself
  · exact congrArg Proc.sz hself

/-- `exec` puts the image in place of the old one, or changes nothing. -/
theorem wp_kexec (hF : Takes E k F) (hE : E (.panic "loadseg: address should exist")) {old : Nat}
    {exe : Option Exe} {argv : List (List UInt8)}
    (hargs : ∀ a ∈ argv, a.length < pgsize) (hs : Stock k F s) (hlen : s.avail.length ≤ ramPages)
    (hpt : (s.proc me).pagetable = some old) (hold : old ∉ s.avail)
    (ht : (s.pagetables old).Good F old) (hsz : (s.proc me).sz ≤ trapframeVa)
    (hb : Bounded (s.proc me).sz (s.pagetables old).leaf) :
    wp E (kexec me exe argv) (fun _ => Execed s me old) s := by
  have hsame : Execed s me old s := .same rfl fun _ _ => rfl
  unfold kexec
  cases exe with
  | none => exact .pure hsame
  | some exe =>
    dsimp only
    cases exe.elf with
    | none => exact .pure hsame
    | some elf =>
      refine .ite (fun _ => .pure hsame) fun _ => ?_
      refine .bind (wp_procPagetable hF me hs) fun r s1 hbuilt => ?_
      cases hbuilt with
      | none hbeside htab => exact .pure (.same (proc_of_beside hbeside) htab)
      | @table root _ hroot w hsub _ _ _ hzero =>
        have hne : old ≠ root := fun heq => hold (heq ▸ hroot)
        -- an abandoned image is torn down again
        have hbad : ∀ {sz : Nat} {s2 : Kernel}, Image k F root s sz s2 →
            wp E (do procFreepagetable root sz; return -1 : K Int)
              (fun _ => Execed s me old) s2 := by
          intro sz s2 h
          refine .bind (wp_procFreepagetable hF h.size h.worked.stock.kend
            h.worked.good h.bounded) fun _ s' h' => .pure ?_
          refine .same ?_ fun r hr => ?_
          · exact (proc_of_beside h'.1.beside).trans (proc_of_beside h.worked.beside)
          · have hrr : r ≠ root := fun heq => hr (heq ▸ hroot)
            exact (h'.1.others r hrr).trans (h.worked.others r hrr)
        have h1 : FullImage k F root s 0 s1 := by
          refine ⟨⟨w, Nat.zero_le _, hzero⟩, fun v hv => ?_, ?_⟩
          · simp only [pagesOf, pgsize] at hv
            omega
          · have := hsub.length_le
            simp only [pagesOf, pgsize]
            omega
        refine .bind (wp_loadProgram hF hE _ h1) fun r s2 h2 => ?_
        obtain ⟨himg, hfull⟩ := h2
        refine .ite (fun _ => hbad himg) fun hloaded => .get_bind ?_
        have hproc2 := proc_of_beside himg.worked.beside
        rw [hproc2]
        have hfull2 := hfull (by simpa using hloaded)
        refine .bind (wp_buildStack h0 hF hargs hfull2) fun r' s3 h3 => ?_
        obtain ⟨sp, sz'⟩ := r'
        cases sp with
        | none => exact hbad h3
        | some sp =>
          have hproc3 := proc_of_beside h3.worked.beside
          refine wp_pagetableOf (hproc3.symm ▸ hpt) ?_
          refine .bind (wp_commitImage me root sz' elf.entry sp s3) fun _ s4 h4 => ?_
          obtain ⟨htab4, hk4, hother4, hpt4, hsz4⟩ := h4
          have htold : s4.pagetables old = s.pagetables old := by
            rw [htab4, h3.worked.others old hne]
          have hk : s4.kend = k := hk4.trans h3.worked.stock.kend
          refine .bind (wp_procFreepagetable hF hsz hk
            (by rw [htold]; exact ht) (by rw [htold]; exact hb)) fun _ s' h' => .pure ?_
          have hproc' := proc_of_beside h'.1.beside
          have hbound := h3.bounded
          rw [← htab4, ← h'.1.others root hne.symm] at hbound
          refine .image hroot (fun q hq => ?_) ?_ ?_ hbound fun r hr hro => ?_
          · rw [hproc', hother4 q hq, hproc3]
          · rw [hproc', hpt4]
          · rw [hproc', hsz4]
          · rw [h'.1.others r hro, htab4, h3.worked.others r hr]

end stack

end GemOS
