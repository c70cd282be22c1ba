/-
  Xv6.Param — the constants of kernel/param.h, kernel/fs.h, kernel/stat.h, kernel/fcntl.h and
  kernel/pipe.c that the models use.
-/

namespace Xv6

/-- Most blocks any file-system operation writes. -/
def MAXOPBLOCKS : Nat := 10

/-- Most data blocks in the on-disk log. -/
def LOGSIZE : Nat := MAXOPBLOCKS * 3

def NBUF : Nat := MAXOPBLOCKS * 3

/-- `sb.nlog` as mkfs writes it (`nlog = LOGSIZE`): the header block is one of these. -/
def mkfsNlog : Nat := LOGSIZE

/-- Size of the file system in blocks, in the util lab. -/
def FSSIZE : Nat := 2000

def ROOTDEV : Nat := 1

def BSIZE : Nat := 1024

/-- The disk writes this many bytes at once or not at all. -/
def SECTOR : Nat := 512

/-! ## Files -/

def NPROC : Nat := 64

def NOFILE : Nat := 16

def NFILE : Nat := 100

def NINODE : Nat := 50

/-- Most major device numbers. -/
def NDEV : Nat := 10

def MAXPATH : Nat := 128

def MAXARG : Nat := 32

def ROOTINO : Nat := 1

def NDIRECT : Nat := 12

def NINDIRECT : Nat := 256

def MAXFILE : Nat := NDIRECT + NINDIRECT

/-- Inodes per block: `BSIZE / sizeof(struct dinode)`. -/
def IPB : Nat := 16

def BPB : Nat := BSIZE * 8

/-- Bytes of a name in a directory entry. -/
def DIRSIZ : Nat := 14

def T_DIR : Nat := 1
def T_FILE : Nat := 2
def T_DEVICE : Nat := 3

def O_RDONLY : Nat := 0x000
def O_WRONLY : Nat := 0x001
def O_RDWR : Nat := 0x002
def O_CREATE : Nat := 0x200
def O_TRUNC : Nat := 0x400

end Xv6
