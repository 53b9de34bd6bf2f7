import MegKer.Foundation.MachineWord
import MegKer.Foundation.SignedWord
import MegKer.Foundation.BitField
import MegKer.Foundation.PackedBits
import MegKer.Foundation.Bytes
import MegKer.Foundation.ByteMemory
import MegKer.Foundation.WordMemory
import MegKer.Foundation.PointerRing
import MegKer.Foundation.Transition
import MegKer.Foundation.StackFrame
import MegKer.Foundation.ContextSwitching
import MegKer.Foundation.Loop
import MegKer.Foundation.TextSheet
import MegKer.Foundation.RingBuffer
import MegKer.Foundation.RadixTable
import MegKer.Foundation.RadixTableEdit
import MegKer.Foundation.RadixTableClone
import MegKer.Foundation.RadixTableDemand
import MegKer.Foundation.RadixTableExhaustion
import MegKer.Memory.FrameAllocator
import MegKer.Memory.FrameAccounting
import MegKer.Memory.FrameOwnership
import MegKer.Memory.FrameReservation
import MegKer.Memory.FrameRuns
import MegKer.Memory.KernelHeap
import MegKer.Memory.HeapLayout
import MegKer.Memory.HeapRefinement
import MegKer.Memory.HeapTiling
import MegKer.Memory.HeapRequests
import MegKer.Memory.FirstFit
import MegKer.Memory.HeapInRam
import MegKer.Memory.HeapNesting
import MegKer.Vmm.TableFrames
import MegKer.Vmm.X86
import MegKer.Vmm.AArch64
import MegKer.Vmm.AddressSpaces
import MegKer.Vmm.Boot
import MegKer.Vmm.PageMaps
import MegKer.Vmm.PageMapRefinement
import MegKer.Vmm.EffectivePermissions
import MegKer.Vmm.IdentityMap
import MegKer.Vmm.TranslationCache
import MegKer.Vmm.TableReclamation
import MegKer.Vmm.BackendAgreement
import MegKer.Vmm.FrameExhaustion
import MegKer.Vmm.UserAccess
import MegKer.Vmm.HeldFrames
import MegKer.Vmm.SpaceCreation
import MegKer.Fs.Vfs
import MegKer.Fs.DiskImage
import MegKer.Fs.ImageRoundTrip
import MegKer.Fs.FileReads
import MegKer.Kernel.ContextSwitch
import MegKer.Kernel.ContextTransparency
import MegKer.Kernel.Scheduler
import MegKer.Kernel.ThreadCreation
import MegKer.Kernel.StackAlignment
import MegKer.Kernel.RoundRobin
import MegKer.Kernel.Preemption
import MegKer.Kernel.PreemptionSafety
import MegKer.Drivers.Console
import MegKer.Drivers.ConsoleColours
import MegKer.Drivers.Keyboard
import MegKer.Drivers.ExtendedKeys
import MegKer.Drivers.VirtioKeyboard
import MegKer.Drivers.ShiftKeys
import MegKer.Drivers.Mouse
import MegKer.Drivers.MousePackets
import MegKer.Drivers.VirtioMouse
import MegKer.Gui.Framebuffer
import MegKer.Gui.Windows
import MegKer.Gui.Drag
import MegKer.Gui.Stacking
import MegKer.Gui.Compositor
import MegKer.Gui.FramebufferMemory
import MegKer.Gui.RectangleFill
import MegKer.Gui.LineDrawing
import MegKer.Memory.Multiboot2
import MegKer.Memory.BootInfoTermination
import MegKer.Memory.MemoryMap
import MegKer.Drivers.Virtio
import MegKer.Drivers.VirtioInput
import MegKer.Drivers.VirtioMmio
import MegKer.Drivers.InputProbing
import MegKer.Drivers.RamFb
import MegKer.Drivers.SetupFailures
import MegKer.Drivers.VirtioBlk
import MegKer.Foundation.WordBytes
import MegKer.Process.Loader
import MegKer.Process.UserSpace
import MegKer.Process.LoadedImage
import MegKer.Process.LoadedSpace
import MegKer.Process.ElfLoading
import MegKer.Process.SegmentOverlap
import MegKer.Process.LoaderConfinement
import MegKer.Process.FrameReturn
import MegKer.Process.StaleMemory
import MegKer.Foundation.TrapFrame
import MegKer.Kernel.InterruptStubs
import MegKer.Kernel.ExceptionVectors
import MegKer.Kernel.PreemptedThreads
import MegKer.Kernel.InterruptGates
import MegKer.Process.ProcessLifetime
import MegKer.Drivers.Pic
import MegKer.Drivers.InterruptDelivery
import MegKer.Drivers.Ata
import MegKer.Kernel.BootFile
import MegKer.Drivers.Gic
import MegKer.Drivers.GenericTimer
import MegKer.Process.UserEntry
import MegKer.Kernel.BootMessages
import MegKer.Process.SupervisorCalls
import MegKer.Drivers.Uart
import MegKer.Foundation.Program
import MegKer.Kernel.ExceptionLevels
import MegKer.Kernel.LongMode
