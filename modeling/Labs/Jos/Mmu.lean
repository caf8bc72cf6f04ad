import Mathlib.Data.Nat.Bitwise

/-!
# Page-table words and the virtual memory layout

The constants of `inc/mmu.h` and `inc/memlayout.h`, the macros that take addresses and page
table entries apart, and the arithmetic the rest of the development uses about them. Words are
32-bit vectors; page numbers and table indices are natural numbers.
-/

namespace Labs.Jos

/-- A 32-bit machine word: `uint32_t`, `uintptr_t`, `physaddr_t`, `pte_t`, `pde_t`. -/
abbrev Word := BitVec 32

/-- A byte of memory. -/
abbrev Byte := BitVec 8

/-! ## Constants -/

def pgsize : Nat := 4096
def pgsizeW : Word := 4096
def npdentries : Nat := 1024
def nptentries : Nat := 1024
def ptsize : Word := 0x400000

def pteP : Word := 0x001
def pteW : Word := 0x002
def pteU : Word := 0x004
def ptePwt : Word := 0x008
def ptePcd : Word := 0x010
def pteAvail : Word := 0xE00
def pteShare : Word := 0x400

/-- The flags system calls may use. -/
def pteSyscall : Word := pteAvail ||| pteP ||| pteW ||| pteU

def kernbase : Word := 0xF0000000
def iophysmem : Nat := 0x0A0000
def extphysmem : Nat := 0x100000
def kstacktop : Word := kernbase
def kstksize : Word := 8 * pgsizeW
def kstkgap : Word := 8 * pgsizeW
def mmiolim : Word := kstacktop - ptsize
def mmiobase : Word := mmiolim - ptsize
def ulim : Word := mmiobase
def uvpt : Word := ulim - ptsize
def upages : Word := uvpt - ptsize
def uenvs : Word := upages - ptsize
def utop : Word := uenvs
def uxstacktop : Word := utop
def ustacktop : Word := utop - 2 * pgsizeW
def mpentryPaddr : Nat := 0x7000

def gdKt : BitVec 16 := 0x08
def gdUt : BitVec 16 := 0x18
def gdUd : BitVec 16 := 0x20

def flIf : Word := 0x00000200
def flIoplMask : Word := 0x00003000
def flIopl3 : Word := 0x00003000
def flVm : Word := 0x00020000

/-! ## Macros -/

/-- `w & flag` as a truth value. -/
def hasFlag (w flag : Word) : Bool := w &&& flag != 0

/-- Page number field of an address. -/
def pgnum (la : Word) : Nat := (la >>> 12).toNat

/-- Page directory index. -/
def pdx (la : Word) : Nat := ((la >>> 22) &&& 0x3FF#32).toNat

/-- Page table index. -/
def ptx (la : Word) : Nat := ((la >>> 12) &&& 0x3FF#32).toNat

/-- Offset in page. -/
def pgoff (la : Word) : Nat := (la &&& 0xFFF#32).toNat

/-- Construct a linear address from a directory index and a table index. -/
def pgaddr (d t : Nat) : Word := BitVec.ofNat 32 d <<< 22 ||| BitVec.ofNat 32 t <<< 12

/-- Address in page table or page directory entry. -/
def pteAddr (pte : Word) : Word := pte &&& ~~~0xFFF#32

/-- `page2pa`: the physical address of a page. -/
def page2pa (p : Nat) : Word := BitVec.ofNat 32 (p * pgsize)

/-- `ROUNDDOWN(a, PGSIZE)`. -/
def rounddown (a : Word) : Word := a - a % pgsizeW

/-- `ROUNDUP(a, PGSIZE)`. -/
def roundup (a : Word) : Word := rounddown (a + pgsizeW - 1)

/-- The entry `page_insert` writes for page `p` and permissions `perm`. -/
def mkPte (p : Nat) (perm : Word) : Word := page2pa p ||| perm ||| pteP

/-- The directory entry `pgdir_walk` writes for a new page table. -/
def mkPde (p : Nat) : Word := page2pa p ||| pteP ||| pteW ||| pteU

/-! ## Arithmetic of the layout -/

theorem pgnum_eq (la : Word) : pgnum la = la.toNat / 4096 := by
  simp [pgnum, Nat.shiftRight_eq_div_pow]

theorem pdx_eq (la : Word) : pdx la = la.toNat / 4194304 := by
  have h := la.isLt
  simp only [pdx, BitVec.toNat_and, BitVec.toNat_ushiftRight, BitVec.toNat_ofNat]
  rw [show 0x3FF % 2 ^ 32 = 2 ^ 10 - 1 from rfl, Nat.and_two_pow_sub_one_eq_mod,
    Nat.shiftRight_eq_div_pow]
  omega

theorem ptx_eq (la : Word) : ptx la = la.toNat / 4096 % 1024 := by
  simp only [ptx, BitVec.toNat_and, BitVec.toNat_ushiftRight, BitVec.toNat_ofNat]
  rw [show 0x3FF % 2 ^ 32 = 2 ^ 10 - 1 from rfl, Nat.and_two_pow_sub_one_eq_mod,
    Nat.shiftRight_eq_div_pow]

theorem pgoff_eq (la : Word) : pgoff la = la.toNat % 4096 := by
  simp only [pgoff, BitVec.toNat_and, BitVec.toNat_ofNat]
  rw [show 0xFFF % 2 ^ 32 = 2 ^ 12 - 1 from rfl, Nat.and_two_pow_sub_one_eq_mod]

theorem pdx_lt (la : Word) : pdx la < 1024 := by
  have := la.isLt
  rw [pdx_eq]
  omega

theorem ptx_lt (la : Word) : ptx la < 1024 := by
  rw [ptx_eq]
  omega

/-- A page number is its directory index and its table index. -/
theorem pgnum_split (la : Word) : pgnum la = pdx la * 1024 + ptx la := by
  rw [pgnum_eq, pdx_eq, ptx_eq]
  omega

theorem pgnum_div (la : Word) : pgnum la / 1024 = pdx la := by
  rw [pgnum_eq, pdx_eq]
  omega

theorem pgnum_mod (la : Word) : pgnum la % 1024 = ptx la := by
  rw [pgnum_eq, ptx_eq]

/-- The number of page directory entries below `UTOP`. -/
theorem pdx_utop : pdx utop = 955 := by decide

theorem pdx_uvpt : pdx uvpt = 957 := by decide

theorem utop_to_nat : utop.toNat = 4005560320 := by decide

theorem ulim_to_nat : ulim.toNat = 4018143232 := by decide

/-- An address is below `UTOP` exactly when its directory index is. -/
theorem pdx_lt_iff (va : Word) : pdx va < 955 ↔ va < utop := by
  rw [pdx_eq, BitVec.lt_def, utop_to_nat]
  omega

/-- The address of a user page and its page number determine each other. -/
theorem pgaddr_to_nat {d t : Nat} (hd : d < 1024) (ht : t < 1024) :
    (pgaddr d t).toNat = (d * 1024 + t) * 4096 := by
  have hd' : (BitVec.ofNat 32 d <<< 22).toNat = d * 4194304 := by
    simp only [BitVec.toNat_shiftLeft, BitVec.toNat_ofNat, Nat.shiftLeft_eq]
    omega
  have ht' : (BitVec.ofNat 32 t <<< 12).toNat = t * 4096 := by
    simp only [BitVec.toNat_shiftLeft, BitVec.toNat_ofNat, Nat.shiftLeft_eq]
    omega
  rw [pgaddr, BitVec.toNat_or, hd', ht', show d * 4194304 = d <<< 22 by
    rw [Nat.shiftLeft_eq], ← Nat.shiftLeft_add_eq_or_of_lt (by omega), Nat.shiftLeft_eq]
  omega

theorem pgnum_pgaddr {d t : Nat} (hd : d < 1024) (ht : t < 1024) :
    pgnum (pgaddr d t) = d * 1024 + t := by
  rw [pgnum_eq, pgaddr_to_nat hd ht]
  omega

theorem pdx_pgaddr {d t : Nat} (hd : d < 1024) (ht : t < 1024) : pdx (pgaddr d t) = d := by
  rw [pdx_eq, pgaddr_to_nat hd ht]
  omega

/-! ## Entries -/

/-- A flag of a disjunction is a flag of one of its parts. -/
theorem has_flag_or (a b flag : Word) :
    hasFlag (a ||| b) flag = (hasFlag a flag || hasFlag b flag) := by
  have hdist : (a ||| b) &&& flag = (a &&& flag) ||| (b &&& flag) := by
    ext i
    simp [Bool.and_or_distrib_right]
  have hzero : ∀ x y : Word, (x ||| y != 0#32) = (x != 0#32 || y != 0#32) := by
    intro x y
    rw [Bool.eq_iff_iff]
    simp only [bne_iff_ne, ne_eq, Bool.or_eq_true, BitVec.or_eq_zero_iff]
    tauto
  simp only [hasFlag, hdist]
  exact hzero _ _

/-- A one-bit flag test reads that bit. -/
theorem has_flag_two_pow (w : Word) (i : Nat) (hi : i < 32) :
    hasFlag w (BitVec.twoPow 32 i) = w.getLsbD i := by
  rw [hasFlag, BitVec.and_twoPow]
  cases h : w.getLsbD i with
  | false => simp
  | true =>
      have hne : BitVec.twoPow 32 i ≠ 0#32 := by
        intro heq
        have := congrArg (fun v => BitVec.getLsbD v i) heq
        simp [hi] at this
      simpa using hne

theorem has_flag_p (w : Word) : hasFlag w pteP = w.getLsbD 0 :=
  has_flag_two_pow w 0 (by decide)

theorem has_flag_w (w : Word) : hasFlag w pteW = w.getLsbD 1 :=
  has_flag_two_pow w 1 (by decide)

theorem has_flag_u (w : Word) : hasFlag w pteU = w.getLsbD 2 :=
  has_flag_two_pow w 2 (by decide)

/-- The address field of an entry has the entry's page number. -/
theorem pgnum_pte_addr (w : Word) : pgnum (pteAddr w) = pgnum w := by
  rw [pgnum, pgnum]
  congr 1
  rw [pteAddr, BitVec.ushiftRight_and_distrib]
  apply BitVec.eq_of_toNat_eq
  rw [BitVec.toNat_and, show (~~~0xFFF#32 >>> 12).toNat = 2 ^ 20 - 1 by decide,
    Nat.and_two_pow_sub_one_eq_mod]
  have := w.isLt
  simp [Nat.shiftRight_eq_div_pow]
  omega

/-- The page numbers of a 32-bit physical address space. -/
theorem pgnum_page2pa {p : Nat} (hp : p < 1048576) : pgnum (page2pa p) = p := by
  rw [pgnum_eq, page2pa, BitVec.toNat_ofNat, pgsize]
  omega

/-- Or-ing flag bits below the page size keeps the page number. -/
theorem pgnum_or_of_lt {a b : Word} (hb : b.toNat < 4096) : pgnum (a ||| b) = pgnum a := by
  rw [pgnum, pgnum, BitVec.ushiftRight_or_distrib]
  have hzero : b >>> 12 = 0#32 := by
    apply BitVec.eq_of_toNat_eq
    simp [Nat.shiftRight_eq_div_pow]
    omega
  simp [hzero]

theorem pgnum_mk_pte {p : Nat} {perm : Word} (hp : p < 1048576) (hperm : perm.toNat < 4096) :
    pgnum (mkPte p perm) = p := by
  rw [mkPte, pgnum_or_of_lt (by decide), pgnum_or_of_lt hperm, pgnum_page2pa hp]

theorem pgnum_mk_pde {p : Nat} (hp : p < 1048576) : pgnum (mkPde p) = p := by
  rw [mkPde, pgnum_or_of_lt (by decide), pgnum_or_of_lt (by decide),
    pgnum_or_of_lt (by decide), pgnum_page2pa hp]

/-- A page address has no flag bit. -/
theorem get_lsb_page2pa (p : Nat) {i : Nat} (hi : i < 12) : (page2pa p).getLsbD i = false := by
  rw [page2pa, BitVec.getLsbD_ofNat, pgsize, show 4096 = 2 ^ 12 from rfl,
    Nat.testBit_mul_two_pow]
  simp
  omega

@[simp] theorem mk_pte_present (p : Nat) (perm : Word) : hasFlag (mkPte p perm) pteP = true := by
  rw [has_flag_p]
  simp [mkPte, pteP]

theorem mk_pte_u (p : Nat) (perm : Word) : hasFlag (mkPte p perm) pteU = hasFlag perm pteU := by
  rw [has_flag_u, has_flag_u, mkPte, BitVec.getLsbD_or, BitVec.getLsbD_or,
    get_lsb_page2pa p (by decide), show pteP.getLsbD 2 = false by decide]
  simp

@[simp] theorem mk_pde_present (p : Nat) : hasFlag (mkPde p) pteP = true := by
  rw [has_flag_p]
  simp [mkPde, pteP]

@[simp] theorem zero_not_present : hasFlag 0 pteP = false := by decide

/-- The address comparison of `page_insert` compares page numbers. -/
theorem pte_addr_eq_iff {w : Word} {p : Nat} (hp : p < 1048576) :
    pteAddr w = page2pa p ↔ pgnum w = p := by
  refine ⟨fun h => by rw [← pgnum_pte_addr, h, pgnum_page2pa hp], ?_⟩
  rintro rfl
  apply BitVec.eq_of_toNat_eq
  have hw := w.isLt
  rw [page2pa, BitVec.toNat_ofNat, pgnum_eq, pgsize]
  have haddr : (pteAddr w).toNat = w.toNat / 4096 * 4096 := by
    have hlow : (pteAddr w).toNat % 4096 = 0 := by
      rw [show 4096 = 2 ^ 12 from rfl, ← Nat.and_two_pow_sub_one_eq_mod]
      have : pteAddr w &&& 0xFFF#32 = 0#32 := by
        rw [pteAddr, BitVec.and_assoc]
        simp
      simpa using congrArg BitVec.toNat this
    have hhigh := pgnum_pte_addr w
    rw [pgnum_eq, pgnum_eq] at hhigh
    omega
  rw [haddr]
  omega

-- comparing two addresses must not compute with 32-bit numerals
attribute [irreducible] kernbase kstacktop kstksize kstkgap mmiolim mmiobase ulim uvpt upages uenvs
  utop uxstacktop ustacktop roundup rounddown

end Labs.Jos
