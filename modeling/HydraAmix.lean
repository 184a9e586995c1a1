import HydraAmix.Library.Program
import HydraAmix.Library.Schedule
import HydraAmix.Library.ParentLinks
import HydraAmix.Library.BitStream
import HydraAmix.Library.Transfer
import HydraAmix.Library.Tiling
import HydraAmix.Slip.RoundTrip
import HydraAmix.Slip.WholeFrames
import HydraAmix.Slip.Stall
import HydraAmix.Aen.Frames
import HydraAmix.Floppy.HeadPosition
import HydraAmix.Audio.Playback
import HydraAmix.Audio.Ioctl
import HydraAmix.Aen.NoLostInterrupt
import HydraAmix.Serial.Output
import HydraAmix.Hydra.OpenClose
import HydraAmix.Hydra.Requests
import HydraAmix.Hydra.Interrupt
import HydraAmix.Hydra.ReceiveBoundary
import HydraAmix.Hydra.ReceiveBounds
import HydraAmix.Hydra.RamRoundTrip
import HydraAmix.Hydra.Bookkeeping
import HydraAmix.Hydra.TransmitPass
import HydraAmix.Hydra.TransmitOrder
import HydraAmix.Hydra.TransmitSap
import HydraAmix.Hydra.Diagnostics
import HydraAmix.Hydra.MessageBounds
import HydraAmix.Hydra.Demultiplex
import HydraAmix.Hydra.Feeds
import HydraAmix.Hydra.Indications
import HydraAmix.Hydra.BoundStreams
import HydraAmix.Boot.CopyIt
import HydraAmix.Boot.ReadStuff
import HydraAmix.Boot.KernelSum
import HydraAmix.Floppy.RequestQueue
import HydraAmix.Floppy.Strategy
import HydraAmix.Floppy.Physio
import HydraAmix.Floppy.TrackCache
import HydraAmix.Floppy.AmigaRead
import HydraAmix.Floppy.MsdosRead
import HydraAmix.Floppy.MsdosCrc
import HydraAmix.Console.CopperList
import HydraAmix.Console.ConsoleMemory
import HydraAmix.Console.CopperPipeline
import HydraAmix.Console.EventQueue
import HydraAmix.Console.Billboard
import HydraAmix.Console.BitmapMap
import HydraAmix.Console.DeviceLife
import HydraAmix.Console.ScreenList
import HydraAmix.Console.FontKeymap
import HydraAmix.Console.KeyEncode
import HydraAmix.Console.ShiftTable
import HydraAmix.Console.ShiftState
import HydraAmix.Console.Picture
import HydraAmix.Console.Emulator
import HydraAmix.Console.Confined
import HydraAmix.Console.ChipMemory
import HydraAmix.Scsi.Controller
import HydraAmix.Scsi.Requests
import HydraAmix.Scsi.DataPointers
import HydraAmix.Scsi.DataPaths
import HydraAmix.Scsi.Bounce
import HydraAmix.Scsi.Twin
import HydraAmix.Scsi.Transparency
import HydraAmix.Disk.DdStrategy
import HydraAmix.Disk.DiskConfined
import HydraAmix.Disk.DdRequests
import HydraAmix.Disk.PartitionOpen
import HydraAmix.Disk.PartitionTable
import HydraAmix.Disk.Breakup
import HydraAmix.Cartridge.Machine
import HydraAmix.Cartridge.TapeRequests
import HydraAmix.Cartridge.TapeOpen
import HydraAmix.Console.WriteDone
import HydraAmix.Console.WriteServed
import HydraAmix.Console.WriteService
import HydraAmix.Library.Pointers
import HydraAmix.Hydra.Acknowledgements
import HydraAmix.Hydra.ReceiveReplay
import HydraAmix.Hydra.FrameSecrecy
import HydraAmix.Disk.JbBus
import HydraAmix.Disk.JbShared
import HydraAmix.Serial.Parallel
import HydraAmix.Serial.ParallelSent
import HydraAmix.Library.Exclusive
import HydraAmix.Scsi.Gsioctl
import HydraAmix.Kdb.Responses
import HydraAmix.Kdb.RemoteWrite
import HydraAmix.Kdb.Sessions
import HydraAmix.Kdb.ExecutedOnce
import HydraAmix.Serial.Card
import HydraAmix.Serial.CardOutput
import HydraAmix.Assembler.As65
import HydraAmix.Assembler.Layout
import HydraAmix.Assembler.Link
import HydraAmix.Assembler.Expression
import HydraAmix.Kernel.Config
import HydraAmix.Kernel.ChipTransfer
import HydraAmix.Library.Records
import HydraAmix.Boot.Handoff
import HydraAmix.Boot.Elf2brel
import HydraAmix.Library.EndAround
import HydraAmix.Boot.Elf2boot
import HydraAmix.Boot.CommonSymbols
import HydraAmix.Floppy.RawTransfer
import HydraAmix.Floppy.Legal
import HydraAmix.Hydra.DeliverySet
import HydraAmix.Hydra.SlotsKept
import HydraAmix.Hydra.IoctlBlocks
import HydraAmix.Hydra.IoctlShapes
import HydraAmix.Hydra.IoctlAgreement
import HydraAmix.Slip.EncodeBound
import HydraAmix.Disk.RamDisk
import HydraAmix.Serial.Crunch
import HydraAmix.Aen.Transmit
import HydraAmix.Console.ScreenLegal
import HydraAmix.Slip.UnitTable
import HydraAmix.Audio.Clients
import HydraAmix.Audio.ClientLinks
import HydraAmix.Library.CircularList
import HydraAmix.Disk.HdQueue
import HydraAmix.Disk.HdElevator
import HydraAmix.Serial.InputRing
import HydraAmix.Serial.InputOrder
import HydraAmix.Serial.ParamSets
import HydraAmix.Serial.Draining
import HydraAmix.Library.CyclicRedundancy
import HydraAmix.Library.Calendar
import HydraAmix.Library.Postfix
import HydraAmix.Library.Staging
import HydraAmix.Clock.Ben
import HydraAmix.Clock.RoundTrip
import HydraAmix.Clock.CalcCrc
import HydraAmix.Library.SharedRing
import HydraAmix.Serial.Resident
import HydraAmix.Serial.ResidentRuns
import HydraAmix.Serial.Sends
import HydraAmix.Serial.SendsInOrder
import HydraAmix.Serial.Receives
import HydraAmix.Serial.ReceivesInOrder
import HydraAmix.Serial.Conditions
import HydraAmix.Serial.Parameters
