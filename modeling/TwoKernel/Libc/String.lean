import TwoKernel.Basic
import TwoKernel.Lib.ByteMem

/-!
# `LibC`, the functions on bytes

The functions of `libc/string.cpp` that write, on a memory of bytes. A pointer is a word, and
`p[i]` is the byte at `p + i`, which wraps around as the word does. A loop that
counts up is `Nat.fold`, one that counts down is `Nat.foldRev`.

`memove` looks at the addresses to find the direction in which it overwrites no
byte that it still has to read; if they are equal it does nothing.
-/

namespace TwoKernel

open ByteMem

namespace LibC

/-- The address of `p[i]`. -/
def at_ (p : Word) (i : Nat) : Nat := (p + BitVec.ofNat 64 i).toNat

/-- `p[i] = c`. -/
def assign (p : Word) (i : Nat) (c : Byte) (m : Mem) : Mem := Function.update m (at_ p i) c

/-- `pdest[i] = psrc[i]`. -/
def copyByte (pdest psrc : Word) (i : Nat) (m : Mem) : Mem := assign pdest i (m (at_ psrc i)) m

def memcpy (dest src n : Word) (m : Mem) : Word × Mem :=
  (dest, n.toNat.fold (fun i _ m => copyByte dest src i m) m)

def memset (s : Word) (c : BitVec 32) (n : Word) (m : Mem) : Word × Mem :=
  (s, n.toNat.fold (fun i _ m => assign s i (c.setWidth 8) m) m)

def memove (dest src n : Word) (m : Mem) : Word × Mem :=
  if dest < src then
    -- for (i = 0; i < n; i++)
    (dest, n.toNat.fold (fun i _ m => copyByte dest src i m) m)
  else if src < dest then
    -- for (i = n; i > 0; i--), with `i - 1` in the body
    (dest, n.toNat.foldRev (fun i _ m => copyByte dest src i m) m)
  else (dest, m)

end LibC

end TwoKernel
