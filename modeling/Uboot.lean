import Uboot.Lib.Run
import Uboot.Lib.Mem
import Uboot.Lib.Extent
import Uboot.Common.MmcFdisk
import Uboot.Common.MmcFdiskChs
import Uboot.Common.FastbootSdmmc
import Uboot.Common.CmdMovi
import Uboot.Common.ProcessMacros
import Uboot.Common.RunCommand
import Uboot.Common.CmdMtdparts
import Uboot.Common.MtdpartsValidate
import Uboot.Common.MtdpartsBuffer
import Uboot.Common.MtdpartsRoundTrip
import Uboot.Common.MtdpartsRuns
import Uboot.Common.MtdpartsCurrent
import Uboot.Lib.BlockDev
import Uboot.Fs.FatFormat
import Uboot.Fs.Ext2
import Uboot.Fs.Ext2BlockMap
import Uboot.Fs.Ext2Errors
import Uboot.Fs.Ext2Inode
import Uboot.Fs.Ext2ReadFile
import Uboot.Fs.Ext2Dir
import Uboot.Fs.Ext2Path
import Uboot.Fs.Fat
import Uboot.Fs.FatRoot
import Uboot.Fs.FatLongName
import Uboot.Fs.FatLookup
import Uboot.Fs.FatDisk
import Uboot.Fs.FatEntry
import Uboot.Fs.FatContents
import Uboot.Net.Tftp
import Uboot.Net.Nfs
import Uboot.Disk.PartDos
import Uboot.Lib.Returns
import Uboot.Disk.PartDosEnds
import Uboot.Common.CreadLine
import Uboot.Common.CreadHistory
import Uboot.Common.CreadEdit
import Uboot.Common.Fastboot
import Uboot.Common.FastbootReply
import Uboot.Common.FastbootPtable
import Uboot.Common.DecompressExt4
import Uboot.Common.FastbootEnv
import Uboot.Common.SRecord
import Uboot.Common.SRecordAccept
import Uboot.Common.Hwconfig
import Uboot.Common.HwconfigSearch
import Uboot.Common.HwconfigRight
import Uboot.Lib.FirstMentions
import Uboot.Common.Iomux
import Uboot.Common.Kermit
import Uboot.LibGeneric.LmbRun
import Uboot.LibGeneric.LmbAlloc
import Uboot.LibGeneric.LmbReserved
import Uboot.LibGeneric.Crc32
import Uboot.Common.EnvCommon
import Uboot.Common.CmdNvedit
import Uboot.Common.GetenvR
import Uboot.Common.EnvStore
import Uboot.Common.EnvNand
import Uboot.Common.EnvCrc
import Uboot.Common.EnvRedundant
import Uboot.Common.EnvNandRange
import Uboot.Lib.Holds
import Uboot.Lib.Usable
import Uboot.Tools.Mkimage
import Uboot.Common.Image
import Uboot.Tools.FwEnv
import Uboot.Tools.FwFlash
import Uboot.Tools.FwEnvRun
import Uboot.Lib.Links
import Uboot.Net.Defrag
import Uboot.Net.DefragHoles
import Uboot.Net.DefragSound
import Uboot.Net.DefragComplete
import Uboot.Net.NetReceive
import Uboot.Net.NetCksum
import Uboot.Net.NetSetIP
import Uboot.Net.Dns
import Uboot.Net.NfsReply
import Uboot.Net.Bootp
import Uboot.Net.IcmpEcho
import Uboot.Net.DefragSafe
import Uboot.Cpu.UsbdOtgHs
import Uboot.Drivers.NandUtil
import Uboot.Lib.Align
import Uboot.Lib.OnesSum
import Uboot.Drivers.PciAuto
import Uboot.Drivers.PciEnumerate
import Uboot.LibGeneric.Div64
import Uboot.LibGeneric.Strstr
import Uboot.LibGeneric.VsprintfNumber
import Uboot.Lib.CommonPrefix
import Uboot.Lib.Tiles
import Uboot.Common.AutoComplete
import Uboot.Common.AutoCompleteRight
import Uboot.Common.EnvComplete
import Uboot.Drivers.MmcRead
import Uboot.Drivers.MmcCsd
import Uboot.Drivers.MmcCapacity
import Uboot.Drivers.MmcErase
import Uboot.Common.Flash
import Uboot.Common.FlashWrite
import Uboot.Common.Update
import Uboot.Disk.PartEfi
import Uboot.LibGeneric.Circbuf
import Uboot.Drivers.PciRegion
import Uboot.Common.UsbStorage
import Uboot.Common.UsbStorageBbb
import Uboot.Lib.Gregorian
import Uboot.Drivers.RtcDate
import Uboot.Cpu.FastbootEp0
import Uboot.Common.FastbootImage
import Uboot.LibGeneric.Strtok
import Uboot.Fs.Cramfs
import Uboot.Fs.CramfsLookup
import Uboot.Common.UsbConfig
import Uboot.Drivers.NandOpts
import Uboot.Drivers.NandOptsLayout
import Uboot.Drivers.NandOptsRight
import Uboot.Common.UsbStorageTransfer
import Uboot.Common.CmdFlash
import Uboot.Common.Eeprom
import Uboot.LibGeneric.AddrMap
import Uboot.Common.LcdConsole
import Uboot.Common.LcdBitmap
import Uboot.Common.LcdBitmapLoops
import Uboot.Common.LcdBitmapDraw
import Uboot.Common.LcdBitmapRight
import Uboot.LibGeneric.Memmove
import Uboot.Common.ImageMove
import Uboot.Disk.PartAmiga
import Uboot.Lib.ByteOrder
import Uboot.Drivers.CfiFlash
import Uboot.Drivers.CfiFlashPieces
import Uboot.Drivers.CfiFlashWrite
import Uboot.Drivers.CfiFindSector
import Uboot.Fs.Ext2Format
import Uboot.Fs.Ext2FormatClear
