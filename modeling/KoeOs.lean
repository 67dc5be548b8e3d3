import KoeOs.Rust.Code
import KoeOs.Rust.Usize
import KoeOs.Rust.Layout
import KoeOs.Lib.Dyadic
import KoeOs.Lib.MaxTree
import KoeOs.Lib.Pool
import KoeOs.Lib.Extent
import KoeOs.Lib.Spans
import KoeOs.Lib.TableTree
import KoeOs.Lib.Rows
import KoeOs.Lib.Amd64
import KoeOs.Lib.Service
import KoeOs.Lib.Text
import KoeOs.Lib.Rough
import KoeOs.Lib.RingBuffer
import KoeOs.Common.ArrayForest
import KoeOs.Common.ForestLayout
import KoeOs.Mem.Addr
import KoeOs.Mem.Ranges
import KoeOs.Phy.Buddy
import KoeOs.Phy.BuddySpec
import KoeOs.Phy.BuddyPool
import KoeOs.Phy.BuddyRun
import KoeOs.Phy.Population
import KoeOs.Phy.Memblock
import KoeOs.Phy.MemblockRun
import KoeOs.Phy.Memblocks
import KoeOs.Phy.BootMemory
import KoeOs.Phy.BootRun
import KoeOs.Phy.Split
import KoeOs.Phy.Record
import KoeOs.Phy.RecordRun
import KoeOs.Phy.Forced
import KoeOs.Phy.Stretch
import KoeOs.Phy.HandOver
import KoeOs.Alloc.Page
import KoeOs.Alloc.Backing
import KoeOs.Phy.Takeover
import KoeOs.Alloc.Pairing
import KoeOs.Alloc.Slab
import KoeOs.Alloc.Global
import KoeOs.Alloc.CacheRun
import KoeOs.Alloc.SlabRun
import KoeOs.Alloc.HeapRun
import KoeOs.Alloc.Fit
import KoeOs.Paging.Entry
import KoeOs.Paging.EntryRecord
import KoeOs.Paging.Map
import KoeOs.Paging.Walk
import KoeOs.Paging.Hardware
import KoeOs.Paging.Mapping
import KoeOs.Paging.Recycled
import KoeOs.Paging.Reports
import KoeOs.Paging.Rights
import KoeOs.Paging.Init
import KoeOs.Paging.KernelImage
import KoeOs.Paging.Supply
import KoeOs.Paging.Spaces
import KoeOs.Paging.Drop
import KoeOs.Paging.KernelHalf
import KoeOs.Drivers.Vga
import KoeOs.Drivers.Screen
import KoeOs.Drivers.Console
import KoeOs.Drivers.Lines
import KoeOs.Io.Keyboard
import KoeOs.Io.Modifiers
import KoeOs.Drivers.Ps2
import KoeOs.Io.Locks
import KoeOs.Interrupt.Entry
import KoeOs.Interrupt.Gate
import KoeOs.Interrupt.Pic
import KoeOs.Interrupt.Nesting
import KoeOs.Drivers.Editor
import KoeOs.Io.Monitor
import KoeOs.Boot.Tables
import KoeOs.Mem.Init
import KoeOs.Mem.Kernel
